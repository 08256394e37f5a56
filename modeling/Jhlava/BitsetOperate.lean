import Jhlava.BitsetExact

/-! `setOperate` as an operation on the members of its two sets, which a program may also
call with one set as both. -/
namespace Jhlava.Bitset
open BitWords Finset

variable {Obj : Type} {set src dest : LsBitset Obj}

/-- The sizes are those of the words, and an `unsigned int` holds them. -/
structure Valid (set : LsBitset Obj) : Prop where
  length : set.bitmask.length = set.setWidth
  size : set.setSize = 32 * set.setWidth
  small : set.setSize < 2 ^ 32

def intendedMembers (op : SetOp) (d s : Finset Nat) : Finset Nat :=
  match op with
  | .union => d ∪ s
  | .intersect => d ∩ s
  | .difference => d \ s
  | .assign => s
  | .other => d

variable {d : Finset Nat} {op : SetOp}

theorem symmDiff_eq_sdiff {s : Finset Nat} : symmDiff d s = d \ s ↔ s ⊆ d := by
  constructor
  · intro eq x inS
    by_contra absent
    have mem : x ∈ symmDiff d s := mem_symmDiff.mpr (Or.inr ⟨inS, absent⟩)
    rw [eq, mem_sdiff] at mem
    exact absent mem.1
  · intro sub
    rw [symmDiff_def, sdiff_eq_empty_iff_subset.mpr sub]
    exact union_empty _

theorem operateMembers_eq_intended {s : Finset Nat} :
    operateMembers op d s = intendedMembers op d s ↔ (op = .difference → s ⊆ d) := by
  cases op with
  | difference =>
    rw [operateMembers, intendedMembers, symmDiff_eq_sdiff]
    exact (imp_iff_right rfl).symm
  | union | intersect | assign | other => exact iff_of_true rfl (by intro eq; cases eq)

theorem operateMembers_self : operateMembers op d d = d ↔ (op = .difference → d = ∅) := by
  cases op with
  | difference =>
    rw [operateMembers, symmDiff_self, eq_comm]
    exact (imp_iff_right rfl).symm
  | union => exact iff_of_true (union_self d) (by intro eq; cases eq)
  | intersect => exact iff_of_true (inter_self d) (by intro eq; cases eq)
  | assign | other => exact iff_of_true rfl (by intro eq; cases eq)

theorem members_setOperate (valid : Valid dest) (valid' : Valid src) (op : SetOp) :
    (setOperate dest src op).2.members = operateMembers op dest.members src.members := by
  rw [setOperate]
  by_cases refused : op = .other
  · rw [refused]
    rfl
  · rw [if_neg refused]
    by_cases narrow : dest.setWidth < src.setWidth
    · have size := valid'.size
      have range := valid'.small
      have wide := setEnlarge_bitmask valid.length
        (show dest.setWidth + src.setWidth + 2 < 2 ^ 32 by omega)
      have members := members_append_zeros word_pos dest.bitmask (src.setWidth + 2)
      have le : src.bitmask.length ≤
        (dest.bitmask ++ List.replicate (src.setWidth + 2) 0).length := by
        rw [List.length_append, List.length_replicate, valid'.length]
        omega
      simp only [if_pos narrow, LsBitset.members, wide]
      rw [members_operateWords op le, members]
    · have le : src.bitmask.length ≤ dest.bitmask.length := by
        rw [valid.length, valid'.length]
        exact not_lt.mp narrow
      simp only [if_neg narrow, LsBitset.members]
      exact members_operateWords op le

theorem setOperate_self (valid : Valid set) :
    (setOperate set set op).2 = set ↔ (op = .difference → set.members = ∅) := by
  rw [← operateMembers_self, ← members_setOperate valid valid op]
  constructor
  · intro same
    rw [same]
  · intro same
    rw [setOperate] at same ⊢
    by_cases refused : op = .other
    · rw [if_pos refused]
    · simp only [if_neg refused, lt_irrefl, if_false] at same ⊢
      have words : operateWords op set.bitmask set.bitmask = set.bitmask :=
        eq_of_members word_pos (length_operateWords op le_rfl) same
      rw [words]

variable (deref : Obj → Int32)

/-- `setOperate` gives its first set the members it is to have and leaves the second one
alone, unless it subtracts: then the second set has to be a part of the first, and another
set unless it is empty. -/
theorem setOperate_intended_iff {sets : List (LsBitset Obj)} {i j : Nat} {a b : LsBitset Obj}
    (atDest : sets[i]? = some a) (atSrc : sets[j]? = some b) (valid : Valid a) (valid' : Valid b)
    (op : SetOp) :
    ((∃ a', (setStep deref sets (.setOperate i j op))[i]? = some a' ∧
        a'.members = intendedMembers op a.members b.members) ∧
      (setStep deref sets (.setOperate i j op))[j]? = some b) ↔
    (op = .difference → b.members ⊆ a.members ∧ (i = j → a.members = ∅)) := by
  have first : (setStep deref sets (.setOperate i j op))[i]? = some (setOperate a b op).2 := by
    simp only [setStep, atSrc, List.getElem?_modify, atDest]
    simp
  have second : (setStep deref sets (.setOperate i j op))[j]? = some b ↔
      (op = .difference → i = j → a.members = ∅) := by
    by_cases same : i = j
    · subst same
      obtain rfl : a = b := Option.some.inj (atDest.symm.trans atSrc)
      rw [first, Option.some.injEq, setOperate_self valid]
      exact forall_congr' fun _ => (imp_iff_right rfl).symm
    · refine iff_of_true ?_ fun _ eq => absurd eq same
      simp only [setStep, atSrc, List.getElem?_modify, if_neg same]
      rfl
  rw [first, second]
  simp only [Option.some.injEq, exists_eq_left', members_setOperate valid valid',
    operateMembers_eq_intended, ← forall_and]

def oneAndFive : LsBitset Int32 := ⟨[34], 32, 1, 2, none, none⟩

def wideFive : LsBitset Int32 := ⟨[32, 0, 0], 96, 3, 1, none, none⟩

def onlyTwo : LsBitset Int32 := ⟨[4], 32, 1, 1, none, none⟩

theorem setOperate_intended_iff_five :
    Valid oneAndFive ∧ Valid wideFive ∧
    ∃ a', (setStep id [oneAndFive, wideFive] (.setOperate 0 1 .difference))[0]? = some a' ∧
      a'.members = oneAndFive.members \ wideFive.members := by
  have valid : Valid oneAndFive := ⟨rfl, rfl, by decide⟩
  have valid' : Valid wideFive := ⟨rfl, rfl, by decide⟩
  have sub : wideFive.members ⊆ oneAndFive.members := by decide +kernel
  refine ⟨valid, valid', ?_⟩
  exact ((setOperate_intended_iff id rfl rfl valid valid' .difference).mpr
    fun _ => ⟨sub, by intro eq; cases eq⟩).1

/-- The difference of the numbers 1 and 5 and the number 2 gets the 2 as well. -/
theorem onlyTwo_joins :
    Valid oneAndFive ∧ Valid onlyTwo ∧ oneAndFive.members = {1, 5} ∧ onlyTwo.members = {2} ∧
    ((setStep id [oneAndFive, onlyTwo] (.setOperate 0 1 .difference))[0]?.map LsBitset.members) =
      some {1, 2, 5} ∧
    intendedMembers .difference oneAndFive.members onlyTwo.members = {1, 5} := by
  refine ⟨⟨rfl, rfl, by decide⟩, ⟨rfl, rfl, by decide⟩, ?_, ?_, ?_, ?_⟩
  · decide +kernel
  · decide +kernel
  · decide +kernel
  · decide +kernel

end Jhlava.Bitset
