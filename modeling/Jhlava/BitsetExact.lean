import Mathlib.Data.List.TakeWhile
import Jhlava.Bitset
import Jhlava.TransitionRun

/-! What the functions of bitset.c do to the members of a set, and when the cached
number of elements is that of the members. -/
namespace Jhlava.Bitset
open BitWords TransitionRun List

variable {Obj : Type} {set src dest : LsBitset Obj}

def LsBitset.members (set : LsBitset Obj) : Finset Nat := BitWords.members set.bitmask

/-- The sizes are those of the words, and an `int` can index them. -/
structure Sized (set : LsBitset Obj) : Prop where
  length : set.bitmask.length = set.setWidth
  size : set.setSize = 32 * set.setWidth
  small : set.setWidth ≤ 2 ^ 26

theorem word_pos : 0 < 32 := by decide

variable {cur n x : Nat} {sets : List (LsBitset Obj)}

theorem Sized.testValue (_ : Sized set) : setTestValue set x = true ↔ x ∈ set.members :=
  (mem_members word_pos).symm

theorem asUnsigned_eq {x : Int32} (small : n < 2 ^ 31) :
    asUnsigned x = n ↔ x.toInt = n := by
  have bound : x.toUInt32.toNat < 2 ^ 32 := x.toUInt32.toNat_lt
  change x.toUInt32.toNat = n ↔ (if 2 * x.toUInt32.toNat < 2 ^ 32 then _ else _) = _
  change _ ↔ (if 2 * x.toUInt32.toNat < 2 ^ 32 then (x.toUInt32.toNat : Int)
    else (x.toUInt32.toNat : Int) - (2 ^ 32 : Nat)) = n
  split <;> omega

theorem sized_setCreate (size : Int32) (f : Option (Obj → Int32)) (g : Option (Nat → Option Obj)) :
    Sized (setCreate size f g) ∧ (setCreate size f g).members = ∅ := by
  have range : size.toInt < 2 ^ 31 := Int32.toInt_lt size
  refine ⟨⟨length_replicate, ?_, ?_⟩, members_zeros word_pos _⟩
  · simp only [setCreate, wordLength, setDefaultSize]
    split <;> omega
  · simp only [setCreate, wordLength, setDefaultSize]
    split <;> omega

theorem setEnlarge_bitmask (length : set.bitmask.length = set.setWidth) {newSize : Nat}
    (fits : set.setWidth + newSize + 2 < 2 ^ 32) :
    (setEnlarge set newSize).bitmask = set.bitmask ++ List.replicate (newSize + 2) 0 := by
  have words : (set.setWidth + newSize + 2) % 2 ^ 32 = set.setWidth + newSize + 2 := by omega
  simp only [setEnlarge, setWordDefaultExtent, words]
  rw [take_of_length_le]
  · congr 2
    omega
  · rw [length_append, length_replicate]
    omega

section

variable (sized : Sized set)
include sized

theorem Sized.mem_lt (mem : x ∈ set.members) : x < set.setSize := by
  have lt := bit_lt word_pos ((mem_members word_pos).mp mem)
  rwa [sized.length, ← sized.size] at lt

theorem sized_setEnlarge {newSize : Nat} (fits : set.setWidth + newSize + 2 ≤ 2 ^ 26) :
    Sized (setEnlarge set newSize) ∧ (setEnlarge set newSize).members = set.members ∧
    (setEnlarge set newSize).setWidth = set.setWidth + newSize + 2 := by
  have width : (setEnlarge set newSize).setWidth = set.setWidth + newSize + 2 := by
    simp only [setEnlarge, setWordDefaultExtent]
    omega
  have mask := setEnlarge_bitmask sized.length (show set.setWidth + newSize + 2 < 2 ^ 32 by omega)
  refine ⟨⟨?_, ?_, width ▸ fits⟩, ?_, width⟩
  · rw [mask, length_append, length_replicate, sized.length]
    omega
  · simp only [setEnlarge, setWordDefaultExtent, wordLength]
    omega
  · rw [LsBitset.members, mask]
    exact members_append_zeros word_pos _ _

theorem sized_enter (inside : x < set.setSize) :
    Sized (set.enter x) ∧ (set.enter x).members = insert x set.members := by
  refine ⟨⟨?_, sized.size, sized.small⟩, members_setBit word_pos ?_⟩
  · exact (length_modify _ _ _).trans sized.length
  · rwa [sized.length, ← sized.size]

theorem sized_setClear : Sized (setClear set) ∧ (setClear set).members = ∅ :=
  ⟨⟨length_replicate, sized.size, sized.small⟩, members_zeros word_pos _⟩

theorem sized_setDup : Sized (setDup set) ∧ (setDup set).members = ∅ :=
  ⟨⟨length_replicate, sized.size, sized.small⟩, members_zeros word_pos _⟩

end

/-- The members after `setOperate`. -/
def operateMembers (op : SetOp) (d s : Finset Nat) : Finset Nat :=
  match op with
  | .union => d ∪ s
  | .intersect => d ∩ s
  | .difference => symmDiff d s
  | .assign => s
  | .other => d

variable {d s : List (BitVec 32)}

theorem members_operateWords (op : SetOp) (le : s.length ≤ d.length) :
    BitWords.members (operateWords op d s) =
      operateMembers op (BitWords.members d) (BitWords.members s) := by
  ext x
  cases op with
  | union =>
    have both := mem_combine word_pos le (· ||| ·) or id (fun a b i => BitVec.getLsbD_or)
      (by simp) rfl x
    simpa [operateMembers, operateWords, combine] using both
  | intersect =>
    have both := mem_combine word_pos le (· &&& ·) and (fun _ => 0)
      (fun a b i => BitVec.getLsbD_and) (by simp) rfl x
    simpa [operateMembers, operateWords, combine] using both
  | difference =>
    have both := mem_combine word_pos le (· ^^^ ·) xor id (fun a b i => BitVec.getLsbD_xor)
      (by simp) rfl x
    rw [operateMembers, Finset.mem_symmDiff]
    refine both.trans ?_
    by_cases inD : x ∈ BitWords.members d <;> by_cases inS : x ∈ BitWords.members s <;>
      simp [inD, inS]
  | assign =>
    have both := mem_combine word_pos le (fun _ v => v) (fun _ b => b) (fun _ => 0)
      (fun a b i => rfl) (by simp) rfl x
    simpa [operateMembers, operateWords, combine] using both
  | other => rfl

theorem length_operateWords (op : SetOp) (le : s.length ≤ d.length) :
    (operateWords op d s).length = d.length := by
  cases op <;> simp [operateWords, combine] <;> omega

/-! ### The number of elements -/

def Counted (set : LsBitset Obj) : Prop := set.setNumElements = set.members.card

theorem Sized.card_le (sized : Sized set) : set.members.card ≤ 2 ^ 31 := by
  have sub : set.members ⊆ Finset.range set.setSize :=
    fun x mem => Finset.mem_range.mpr (sized.mem_lt mem)
  have le := Finset.card_le_card sub
  have size := sized.size
  have small := sized.small
  rw [Finset.card_range] at le
  omega

variable (deref : Obj → Int32)

def FitsAdd (set : LsBitset Obj) (obj : Obj) : Prop :=
  ∀ x ∈ set.index deref obj, 0 ≤ x.toInt ∧
    (set.setSize ≤ asUnsigned x → set.setWidth + asUnsigned x + 2 ≤ 2 ^ 26)

theorem setAddElement_counted (sized : Sized set) (counted : Counted set) {obj : Obj}
    (fits : FitsAdd deref set obj) :
    Sized (setAddElement deref set obj).2 ∧ Counted (setAddElement deref set obj).2 := by
  have enters : ∀ {set : LsBitset Obj} {x : Nat}, Sized set → Counted set → x < set.setSize →
      x ∉ set.members → Sized (set.enter x) ∧ Counted (set.enter x) := by
    intro set x sized counted inside new
    have entered := sized_enter sized inside
    have le := sized.card_le
    refine ⟨entered.1, ?_⟩
    rw [Counted, entered.2, Finset.card_insert_of_notMem new, LsBitset.enter, counted]
    dsimp only
    omega
  rw [setAddElement]
  split
  · exact ⟨sized, counted⟩
  · rename_i x index
    split
    · rename_i large
      obtain ⟨sized', members, width⟩ := sized_setEnlarge sized ((fits x index).2 large)
      have size := sized'.size
      refine enters sized' ?_ (by omega) ?_
      · rw [Counted, members]
        exact counted
      · rw [members]
        exact fun mem => absurd (sized.mem_lt mem) (not_lt.mpr large)
    · rename_i inside
      split
      · exact ⟨sized, counted⟩
      · rename_i absent
        exact enters sized counted (not_le.mp inside) fun mem => absent (sized.testValue.mpr mem)

/-- The index `setRemoveElement` works with. -/
def removed (set : LsBitset Obj) (obj : Obj) : Nat :=
  asUnsigned ((set.getIndexByObject.getD deref) obj)

theorem setRemoveElement_counted_iff (sized : Sized set) (counted : Counted set) (obj : Obj) :
    Sized (setRemoveElement deref set obj).2 ∧
    (Counted (setRemoveElement deref set obj).2 ↔
      set.members = ∅ ∨ set.setSize ≤ removed deref set obj ∨
        removed deref set obj ∈ set.members) := by
  have le := sized.card_le
  rw [setRemoveElement]
  by_cases empty : set.setNumElements = 0
  · rw [if_pos empty]
    have none_ : set.members = ∅ := Finset.card_eq_zero.mp (counted.symm.trans empty)
    exact ⟨sized, iff_of_true counted (Or.inl none_)⟩
  · have some_ : set.members ≠ ∅ := fun none_ => empty (counted.trans (none_ ▸ Finset.card_empty))
    rw [if_neg empty]
    change Sized (if set.setSize ≤ removed deref set obj then _ else _ : _ × LsBitset Obj).2 ∧
      (Counted (if set.setSize ≤ removed deref set obj then _ else _ : _ × LsBitset Obj).2 ↔ _)
    by_cases large : set.setSize ≤ removed deref set obj
    · rw [if_pos large]
      exact ⟨sized, iff_of_true counted (Or.inr (Or.inl large))⟩
    · rw [if_neg large]
      have inside : removed deref set obj < 32 * set.bitmask.length := by
        rw [sized.length, ← sized.size]
        exact not_le.mp large
      refine ⟨⟨(length_modify _ _ _).trans sized.length, sized.size, sized.small⟩, ?_⟩
      have members := members_clearBit word_pos inside
      change (set.setNumElements + 2 ^ 32 - 1) % 2 ^ 32 =
        (BitWords.members (clearBit set.bitmask (removed deref set obj))).card ↔ _
      have pos := Finset.card_pos.mpr (Finset.nonempty_iff_ne_empty.mpr some_)
      rw [members, counted]
      change (set.members.card + 2 ^ 32 - 1) % 2 ^ 32 =
        (set.members.erase (removed deref set obj)).card ↔ _
      by_cases mem : removed deref set obj ∈ set.members
      · rw [Finset.card_erase_of_mem mem]
        exact iff_of_true (by omega) (Or.inr (Or.inr mem))
      · rw [Finset.erase_eq_of_notMem mem]
        exact iff_of_false (by omega) (by simp [some_, large, mem])

theorem setDup_counted_iff (sized : Sized set) (counted : Counted set) :
    Sized (setDup set) ∧ (Counted (setDup set) ↔ set.members = ∅) := by
  obtain ⟨sized', members⟩ := sized_setDup sized
  refine ⟨sized', ?_⟩
  rw [Counted, members, ← Finset.card_eq_zero, ← counted]
  rfl

/-- `setOperate` leaves the number of elements right. -/
def KeepsCard (op : SetOp) (d s : Finset Nat) : Prop :=
  match op with
  | .union => s ⊆ d
  | .intersect => d ⊆ s
  | .difference => (s \ d).card = (d ∩ s).card
  | .assign => s.card = d.card
  | .other => True

theorem card_operateMembers (op : SetOp) (d s : Finset Nat) :
    (operateMembers op d s).card = d.card ↔ KeepsCard op d s := by
  cases op with
  | union =>
    constructor
    · intro same
      have eq := Finset.eq_of_subset_of_card_le (Finset.subset_union_left : d ⊆ d ∪ s) same.le
      exact Finset.union_eq_left.mp eq.symm
    · intro sub
      rw [operateMembers, Finset.union_eq_left.mpr sub]
  | intersect =>
    constructor
    · intro same
      have eq := Finset.eq_of_subset_of_card_le (Finset.inter_subset_left : d ∩ s ⊆ d) same.ge
      exact Finset.inter_eq_left.mp eq
    · intro sub
      rw [operateMembers, Finset.inter_eq_left.mpr sub]
  | difference =>
    have parts : (symmDiff d s).card = (d \ s).card + (s \ d).card := by
      rw [symmDiff_def, Finset.sup_eq_union, Finset.card_union_of_disjoint disjoint_sdiff_sdiff]
    have whole := Finset.card_sdiff_add_card_inter d s
    rw [operateMembers, KeepsCard]
    omega
  | assign => exact Iff.rfl
  | other => exact iff_of_true rfl trivial

def FitsOperate (dest src : LsBitset Obj) : Prop :=
  dest.setWidth < src.setWidth → dest.setWidth + src.setWidth + 2 ≤ 2 ^ 26

theorem setOperate_counted_iff (sized : Sized dest) (sized' : Sized src) (counted : Counted dest)
    (fits : FitsOperate dest src) (op : SetOp) :
    Sized (setOperate dest src op).2 ∧
    (Counted (setOperate dest src op).2 ↔ KeepsCard op dest.members src.members) := by
  have words : ∀ {dest : LsBitset Obj}, Sized dest → src.setWidth ≤ dest.setWidth →
      Sized { dest with bitmask := operateWords op dest.bitmask src.bitmask } ∧
      LsBitset.members { dest with bitmask := operateWords op dest.bitmask src.bitmask } =
        operateMembers op dest.members src.members := by
    intro dest sized le
    rw [← sized.length, ← sized'.length] at le
    refine ⟨⟨?_, sized.size, sized.small⟩, members_operateWords op le⟩
    exact (length_operateWords op le).trans sized.length
  rw [setOperate]
  by_cases refused : op = .other
  · rw [if_pos refused]
    exact ⟨sized, iff_of_true counted (by rw [refused]; trivial)⟩
  · rw [if_neg refused]
    by_cases narrow : dest.setWidth < src.setWidth
    · obtain ⟨wide, members, width⟩ := sized_setEnlarge sized (fits narrow)
      obtain ⟨done, result⟩ := words wide (by omega)
      rw [if_pos narrow]
      refine ⟨done, ?_⟩
      rw [Counted, result, members, ← card_operateMembers, ← counted]
      exact eq_comm
    · obtain ⟨done, result⟩ := words sized (not_lt.mp narrow)
      rw [if_neg narrow]
      refine ⟨done, ?_⟩
      rw [Counted, result, ← card_operateMembers, ← counted]
      exact eq_comm

/-! ### Membership and iteration -/

theorem setIsMember_iff (sized : Sized set) (counted : Counted set) (obj : Obj) :
    setIsMember deref set obj = 1 ↔
      ∃ x, set.index deref obj = some x ∧ ∃ n ∈ set.members, x.toInt = n := by
  rw [setIsMember]
  by_cases empty : set.setNumElements = 0
  · have none_ : set.members = ∅ := Finset.card_eq_zero.mp (counted.symm.trans empty)
    rw [if_pos empty, none_]
    simp
  · rw [if_neg empty]
    have small : ∀ n ∈ set.members, n < 2 ^ 31 := by
      intro n mem
      have lt := sized.mem_lt mem
      have size := sized.size
      have := sized.small
      omega
    cases index : set.index deref obj with
    | none => simp
    | some x =>
      have here : (∃ n ∈ set.members, x.toInt = n) ↔ asUnsigned x ∈ set.members := by
        constructor
        · rintro ⟨n, mem, value⟩
          rw [(asUnsigned_eq (small n mem)).mpr value]
          exact mem
        · intro mem
          exact ⟨_, mem, (asUnsigned_eq (small _ mem)).mp rfl⟩
      simp only [Option.some.injEq, exists_eq_left', here]
      by_cases large : set.setSize ≤ asUnsigned x
      · simp only [if_pos large]
        exact iff_of_false (by simp) fun mem => absurd (sized.mem_lt mem) (not_lt.mpr large)
      · simp only [if_neg large, ← sized.testValue]
        split
        · simp_all
        · simp_all

def membersFrom (set : LsBitset Obj) (n cur : Nat) : List Nat :=
  (List.range' cur n).filter (setTestValue set)

theorem nextElement_nil (none_ : membersFrom set n cur = []) :
    (nextElement set n cur).1 = none := by
  induction n generalizing cur with
  | zero => rfl
  | succ n ih =>
    rw [membersFrom, List.range'_succ, filter_cons] at none_
    split at none_
    · exact absurd none_ (by simp)
    · rename_i clear
      rw [nextElement, if_neg clear]
      exact ih none_

theorem nextElement_cons {y : Nat} {rest : List Nat} (first : membersFrom set n cur = y :: rest) :
    (nextElement set n cur).1 = set.objectAt y ∧
    (set.objectAt y ≠ none → (nextElement set n cur).2 = y + 1) ∧
    y < cur + n ∧ membersFrom set (cur + n - (y + 1)) (y + 1) = rest := by
  induction n generalizing cur with
  | zero => exact absurd first (by simp [membersFrom])
  | succ n ih =>
    rw [membersFrom, List.range'_succ, filter_cons] at first
    split at first
    · rename_i here
      obtain ⟨rfl, rest_eq⟩ := List.cons.inj first
      refine ⟨?_, fun some_ => ?_, by omega, ?_⟩
      · rw [nextElement, if_pos here]
        cases set.getObjectByIndex with
        | none => rfl
        | some f => cases set.objectAt cur <;> rfl
      · rw [nextElement, if_pos here]
        cases set.getObjectByIndex with
        | none => rfl
        | some f =>
          cases object : set.objectAt cur with
          | none => exact absurd object some_
          | some o => rfl
      · rw [show cur + (n + 1) - (cur + 1) = n by omega]
        exact rest_eq
    · rename_i clear
      rw [nextElement, if_neg clear]
      obtain ⟨object, next, lt, tail⟩ := ih first
      refine ⟨object, next, by omega, ?_⟩
      rw [show cur + (n + 1) - (y + 1) = cur + 1 + n - (y + 1) by omega]
      exact tail

theorem iterate_eq (some_ : set.setNumElements ≠ 0) {fuel : Nat} {rest : List Nat}
    (from_ : membersFrom set (set.setSize - cur) cur = rest) (inside : cur ≤ set.setSize)
    (enough : rest.length < fuel) :
    (iterate set fuel cur).map (fun v => (v.1, some v.2)) =
      (rest.takeWhile fun y => (set.objectAt y).isSome).map fun y => (y, set.objectAt y) := by
  induction fuel generalizing cur rest with
  | zero => exact absurd enough (Nat.not_lt_zero _)
  | succ fuel ih =>
    rw [iterate, setIteratorGetNextElement, if_neg some_]
    cases rest with
    | nil =>
      have stop := nextElement_nil from_
      generalize nextElement set (set.setSize - cur) cur = next at stop
      obtain ⟨visit, cur'⟩ := next
      subst stop
      rfl
    | cons y rest =>
      obtain ⟨object, after, lt, tail⟩ := nextElement_cons from_
      generalize nextElement set (set.setSize - cur) cur = next at object after
      obtain ⟨visit, cur'⟩ := next
      subst object
      cases object : set.objectAt y with
      | none => simp [object]
      | some o =>
        have next : cur' = y + 1 := after (by simp [object])
        subst next
        have later := @ih (y + 1) rest
          (by rw [show set.setSize - (y + 1) = cur + (set.setSize - cur) - (y + 1) by omega]
              exact tail)
          (by omega) (by simpa using enough)
        simp [object, later]

def VisitsMembers (set : LsBitset Obj) : Prop :=
  ((visits set).map Prod.fst).Nodup ∧ (∀ x, x ∈ (visits set).map Prod.fst ↔ x ∈ set.members) ∧
  ∀ v ∈ visits set, set.objectAt v.1 = some v.2

theorem membersFrom_zero (sized : Sized set) :
    x ∈ membersFrom set set.setSize 0 ↔ x ∈ set.members := by
  rw [membersFrom, mem_filter, mem_range'_1, sized.testValue]
  exact ⟨And.right, fun mem => ⟨⟨Nat.zero_le _, by simpa using sized.mem_lt mem⟩, mem⟩⟩

theorem visitsMembers_iff (sized : Sized set) (counted : Counted set) :
    VisitsMembers set ↔ ∀ x ∈ set.members, set.objectAt x ≠ none := by
  by_cases empty : set.setNumElements = 0
  · have none_ : set.members = ∅ := Finset.card_eq_zero.mp (counted.symm.trans empty)
    have nothing : visits set = [] := by
      rw [visits, iterate, setIteratorGetNextElement, if_pos empty]
    rw [VisitsMembers, nothing, none_]
    simp
  · have all : (visits set).map (fun v => (v.1, some v.2)) =
        ((membersFrom set set.setSize 0).takeWhile fun y => (set.objectAt y).isSome).map
          fun y => (y, set.objectAt y) := by
      refine iterate_eq empty rfl (Nat.zero_le _) ?_
      have le := length_filter_le (setTestValue set) (List.range' 0 set.setSize)
      rw [length_range'] at le
      exact Nat.lt_succ_of_le le
    have firsts := congrArg (List.map Prod.fst) all
    simp only [map_map, Function.comp_def, map_id'] at firsts
    have sorted : (membersFrom set set.setSize 0).Nodup := List.Nodup.filter _ (nodup_range' ..)
    constructor
    · intro visited x mem
      have there := (visited.2.1 x).mpr mem
      rw [firsts] at there
      have isSome := mem_takeWhile_imp there
      exact Option.isSome_iff_ne_none.mp isSome
    · intro objects
      have whole : ((membersFrom set set.setSize 0).takeWhile fun y => (set.objectAt y).isSome) =
          membersFrom set set.setSize 0 := by
        rw [takeWhile_eq_self_iff]
        intro y mem
        exact Option.isSome_iff_ne_none.mpr (objects y ((membersFrom_zero sized).mp mem))
      rw [whole] at all firsts
      refine ⟨?_, fun x => ?_, fun v mem => ?_⟩
      · rw [firsts]
        exact sorted
      · rw [firsts]
        exact membersFrom_zero sized
      · have there := mem_map_of_mem (f := fun v : Nat × Visit Obj => (v.1, some v.2)) mem
        rw [all] at there
        obtain ⟨y, -, eq⟩ := mem_map.mp there
        obtain ⟨rfl, object⟩ := Prod.mk.inj eq
        exact object

/-! ### Runs -/

/-- The number of elements, membership and iteration of one set. -/
structure Exact (set : LsBitset Obj) : Prop where
  counted : Counted set
  member : ∀ obj, setIsMember deref set obj = 1 ↔
    ∃ x, set.index deref obj = some x ∧ ∃ n ∈ set.members, x.toInt = n
  visits : VisitsMembers set ↔ ∀ x ∈ set.members, set.objectAt x ≠ none

/-- Indexes are not negative, and no set gets larger than an `int` can index. -/
def Fits (sets : List (LsBitset Obj)) : SetStep Obj → Prop
  | .setAddElement i obj => ∀ set ∈ sets[i]?, FitsAdd deref set obj
  | .setOperate dest src _ => ∀ s ∈ sets[src]?, ∀ d ∈ sets[dest]?, FitsOperate d s
  | _ => True

def Harmless (sets : List (LsBitset Obj)) : SetStep Obj → Prop
  | .setRemoveElement i obj => ∀ set ∈ sets[i]?,
      set.members = ∅ ∨ set.setSize ≤ removed deref set obj ∨ removed deref set obj ∈ set.members
  | .setDup i => ∀ set ∈ sets[i]?, set.members = ∅
  | .setOperate dest src op => ∀ s ∈ sets[src]?, ∀ d ∈ sets[dest]?,
      KeepsCard op d.members s.members
  | _ => True

def DupSame (sets : List (LsBitset Obj)) : SetStep Obj → Prop
  | .setDup i => ∀ set ∈ sets[i]?, (setDup set).members = set.members
  | _ => True

def Sound (sets : List (LsBitset Obj)) : Prop := ∀ set ∈ sets, Sized set ∧ Counted set

theorem Sound.exact (sound : Sound sets) :
    ∀ set ∈ sets, Exact deref set := fun set mem =>
  have ⟨sized, counted⟩ := sound set mem
  ⟨counted, setIsMember_iff deref sized counted, visitsMembers_iff sized counted⟩

omit deref in
theorem forall_modify {P : LsBitset Obj → Prop} (all : ∀ set ∈ sets, P set) (i : Nat)
    (f : LsBitset Obj → LsBitset Obj) :
    (∀ set ∈ sets.modify i f, P set) ↔ ∀ set, sets[i]? = some set → P (f set) := by
  constructor
  · intro after set at_
    refine after (f set) (mem_of_getElem? (i := i) ?_)
    rw [List.getElem?_modify, at_]
    simp
  · intro here set mem
    obtain ⟨k, at_⟩ := mem_iff_getElem?.mp mem
    rw [List.getElem?_modify] at at_
    obtain ⟨old, known, rfl⟩ := Option.map_eq_some_iff.mp at_
    by_cases eq : i = k
    · rw [if_pos eq]
      exact here old (eq ▸ known)
    · rw [if_neg eq]
      exact all old (mem_of_getElem? known)

/-- What a call does to sound sets: their sizes stay right, and all is well exactly if the
call is harmless. -/
theorem setStep_sound_iff (sound : Sound sets) {step : SetStep Obj} (fits : Fits deref sets step) :
    (∀ set ∈ setStep deref sets step, Sized set) ∧
    ((∀ set ∈ setStep deref sets step, Counted set) ∧ DupSame sets step ↔
      Harmless deref sets step) := by
  have sized : ∀ set ∈ sets, Sized set := fun set mem => (sound set mem).1
  have counted : ∀ set ∈ sets, Counted set := fun set mem => (sound set mem).2
  have known : ∀ {i set}, sets[i]? = some set → Sized set ∧ Counted set :=
    fun at_ => sound _ (mem_of_getElem? at_)
  have one : ∀ {P : LsBitset Obj → Prop} (new : LsBitset Obj), (∀ set ∈ sets, P set) →
      ((∀ set ∈ sets ++ [new], P set) ↔ P new) := by
    intro P new all
    simp only [mem_append, mem_singleton, or_imp, forall_and, forall_eq, and_iff_right all]
  cases step with
  | setCreate size f g =>
    have made := sized_setCreate size f g
    refine ⟨(one _ sized).mpr made.1, iff_of_true ⟨(one _ counted).mpr ?_, trivial⟩ trivial⟩
    rw [Counted, made.2]
    rfl
  | setAddElement i obj =>
    have added := fun set (at_ : sets[i]? = some set) =>
      setAddElement_counted deref (known at_).1 (known at_).2 (fits set at_)
    exact ⟨(forall_modify sized i _).mpr fun set at_ => (added set at_).1,
      iff_of_true ⟨(forall_modify counted i _).mpr fun set at_ => (added set at_).2, trivial⟩
        trivial⟩
  | setRemoveElement i obj =>
    have taken := fun set (at_ : sets[i]? = some set) =>
      setRemoveElement_counted_iff deref (known at_).1 (known at_).2 obj
    refine ⟨(forall_modify sized i _).mpr fun set at_ => (taken set at_).1, ?_⟩
    simp only [setStep, forall_modify counted i, DupSame, and_true, Harmless]
    exact forall₂_congr fun set at_ => (taken set at_).2
  | setDup i =>
    have dup := fun set (at_ : sets[i]? = some set) =>
      setDup_counted_iff (known at_).1 (known at_).2
    cases at_ : sets[i]? with
    | none =>
      simp only [setStep, at_, Option.map_none, Option.toList_none, append_nil, DupSame, Harmless]
      exact ⟨sized, iff_of_true ⟨counted, nofun⟩ nofun⟩
    | some set =>
      obtain ⟨sized', iff_⟩ := dup set at_
      simp only [setStep, at_, Option.map_some, Option.toList_some, one _ sized, one _ counted,
        DupSame, Harmless, Option.mem_def, Option.some.injEq, forall_eq', iff_,
          (sized_setDup (known at_).1).2]
      exact ⟨sized', and_iff_left_of_imp Eq.symm⟩
  | setOperate dest src op =>
    cases from_ : sets[src]? with
    | none =>
      simp only [setStep, from_, DupSame, Harmless]
      exact ⟨sized, iff_of_true ⟨counted, trivial⟩ (by simp)⟩
    | some s =>
      have done := fun d (at_ : sets[dest]? = some d) =>
        setOperate_counted_iff (known at_).1 (known from_).1 (known at_).2 (fits s from_ d at_) op
      simp only [setStep, from_]
      refine ⟨(forall_modify sized dest _).mpr fun d at_ => (done d at_).1, ?_⟩
      simp only [forall_modify counted dest, DupSame, and_true, Harmless, from_, Option.mem_def,
        Option.some.injEq, forall_eq']
      exact forall₂_congr fun d at_ => (done d at_).2
  | setClear i =>
    have cleared := fun set (at_ : sets[i]? = some set) => sized_setClear (known at_).1
    refine ⟨(forall_modify sized i _).mpr fun set at_ => (cleared set at_).1,
      iff_of_true ⟨(forall_modify counted i _).mpr fun set at_ => ?_, trivial⟩ trivial⟩
    rw [Counted, (cleared set at_).2]
    rfl

/-- As long as no set outgrows an `int`, the sets of a program are right after every call,
and its duplicates are, exactly if it removes no absent element, duplicates no set with
members, and makes no `setOperate` that changes the number of members. -/
theorem bitsets_exact_iff (steps : List (SetStep Obj))
    (fits : Along (setStep deref) (Fits deref) [] steps) :
    (∀ before, before <+: steps → ∀ set ∈ run (setStep deref) [] before, Exact deref set) ∧
      Along (setStep deref) DupSame [] steps ↔ Along (setStep deref) (Harmless deref) [] steps := by
  have start : Sound ([] : List (LsBitset Obj)) := nofun
  have first : ∀ set ∈ ([] : List (LsBitset Obj)), Exact deref set := nofun
  rw [forall_prefix_iff (fun sets => ∀ set ∈ sets, Exact deref set), and_iff_right first,
    ← along_and]
  have exact_iff : ∀ sets step, Sound sets → Fits deref sets step →
      ((∀ set ∈ setStep deref sets step, Exact deref set) ↔ Sound (setStep deref sets step)) := by
    intro sets step sound fits
    have sized := (setStep_sound_iff deref sound fits).1
    exact ⟨fun all set mem => ⟨sized set mem, (all set mem).counted⟩, fun sound =>
      sound.exact deref⟩
  have congr : Along (setStep deref) (fun sets step => Fits deref sets step ∧
        (∀ set ∈ setStep deref sets step, Exact deref set) ∧ DupSame sets step) [] steps ↔
      Along (setStep deref) (fun sets step => Fits deref sets step ∧ Harmless deref sets step)
        [] steps := by
    refine along_congr Sound (fun sets step sound ok => ?_) (fun sets step sound => ?_) start steps
    · exact (exact_iff sets step sound ok.1).mp ok.2.1
    · refine and_congr_right fun fits => ?_
      rw [← (setStep_sound_iff deref sound fits).2, exact_iff sets step sound fits]
      refine and_congr_left fun _ => ⟨fun all set mem => (all set mem).2, fun all set mem => ?_⟩
      exact ⟨(setStep_sound_iff deref sound fits).1 set mem, all set mem⟩
  rw [along_and (P := Fits deref), along_and (P := Fits deref), and_iff_right fits,
    and_iff_right fits] at congr
  exact congr

instance (set : LsBitset Obj) (obj : Obj) : Decidable (FitsAdd deref set obj) :=
  -- over the option, not over all numbers
  Option.decidableForallMem (set.index deref obj)

instance (sets : List (LsBitset Obj)) (step : SetStep Obj) : Decidable (Fits deref sets step) :=
  match step with
  | .setAddElement i obj => inferInstanceAs (Decidable (∀ set ∈ sets[i]?, FitsAdd deref set obj))
  | .setOperate dest src _ => inferInstanceAs (Decidable (∀ s ∈ sets[src]?, ∀ d ∈ sets[dest]?,
      d.setWidth < s.setWidth → d.setWidth + s.setWidth + 2 ≤ 2 ^ 26))
  | .setCreate .. | .setRemoveElement .. | .setDup .. | .setClear .. =>
    inferInstanceAs (Decidable True)

instance (op : SetOp) (d s : Finset Nat) : Decidable (KeepsCard op d s) :=
  match op with
  | .union => inferInstanceAs (Decidable (s ⊆ d))
  | .intersect => inferInstanceAs (Decidable (d ⊆ s))
  | .difference => inferInstanceAs (Decidable ((s \ d).card = (d ∩ s).card))
  | .assign => inferInstanceAs (Decidable (s.card = d.card))
  | .other => inferInstanceAs (Decidable True)

instance (sets : List (LsBitset Obj)) (step : SetStep Obj) : Decidable (Harmless deref sets step) :=
  match step with
  | .setRemoveElement i obj => inferInstanceAs (Decidable (∀ set ∈ sets[i]?,
      set.members = ∅ ∨ set.setSize ≤ removed deref set obj ∨ removed deref set obj ∈ set.members))
  | .setDup i => inferInstanceAs (Decidable (∀ set ∈ sets[i]?, set.members = ∅))
  | .setOperate dest src op => inferInstanceAs (Decidable (∀ s ∈ sets[src]?, ∀ d ∈ sets[dest]?,
      KeepsCard op d.members s.members))
  | .setCreate .. | .setAddElement .. | .setClear .. => inferInstanceAs (Decidable True)

def twoSets : List (SetStep Int32) :=
  [.setCreate 8 none none, .setAddElement 0 5, .setAddElement 0 70, .setCreate 8 none none,
    .setAddElement 1 70, .setRemoveElement 0 5, .setOperate 0 1 .union, .setClear 1, .setDup 1]

theorem bitsets_exact_iff_twoSets :
    Along (setStep id) (Fits id) [] twoSets ∧
    ∀ set ∈ run (setStep id) [] twoSets, Exact id set := by
  have fits : Along (setStep id) (Fits id) [] twoSets := by decide +kernel
  have harmless : Along (setStep id) (Harmless id) [] twoSets := by decide +kernel
  exact ⟨fits, ((bitsets_exact_iff id twoSets fits).mpr harmless).1 twoSets prefix_rfl⟩

def removeAbsent : List (SetStep Int32) :=
  [.setCreate 8 none none, .setAddElement 0 5, .setDup 0, .setRemoveElement 0 6]

/-- The set still has its member, and counts none; the duplicate counts one, and has
none. -/
theorem removeAbsent_not_exact :
    Along (setStep id) (Fits id) [] removeAbsent ∧
    (run (setStep id) [] removeAbsent).map (fun set => (set.setNumElements, set.members)) =
      [(0, {5}), (1, ∅)] ∧
    (run (setStep id) [] removeAbsent).map (fun set => setIsMember id set 5) = [0, 0] ∧
    ¬∀ set ∈ run (setStep id) [] removeAbsent, Exact id set := by
  have counts : (run (setStep id) [] removeAbsent).map
      (fun set => (set.setNumElements, set.members)) = [(0, {5}), (1, ∅)] := by decide +kernel
  refine ⟨by decide +kernel, counts, by decide +kernel, fun all => ?_⟩
  have exact_ : ∀ c ∈ (run (setStep id) [] removeAbsent).map
      (fun set => (set.setNumElements, set.members)), c.1 = c.2.card := by
    intro c mem
    obtain ⟨set, here, rfl⟩ := mem_map.mp mem
    exact (all set here).counted
  rw [counts] at exact_
  exact absurd (exact_ (0, {5}) (by simp)) (by decide)

end Jhlava.Bitset
