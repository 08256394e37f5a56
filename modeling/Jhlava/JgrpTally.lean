import Mathlib.Algebra.BigOperators.Intervals
import Jhlava.JgrpTree

/-! The jobs below the nodes of the job group tree, counted by the class of their
status, and what the counting functions do to the counts of one node. -/
namespace Jhlava.Core
open List Function

/-! ### Classes of status -/

/-- The bits of a status that `getIndexOfJStatus` reads. -/
def indexBits (status : Status) : Status :=
  maskStatus (status &&& ~~~jobStatUnkwn &&& ~~~jobStatPdone &&& ~~~jobStatPerr)

theorem getIndexOfJStatus_congr {s t : Status} (same : indexBits s = indexBits t) :
    getIndexOfJStatus s = getIndexOfJStatus t := by
  simp only [getIndexOfJStatus]
  rw [show maskStatus (s &&& ~~~jobStatUnkwn &&& ~~~jobStatPdone &&& ~~~jobStatPerr) =
    maskStatus (t &&& ~~~jobStatUnkwn &&& ~~~jobStatPdone &&& ~~~jobStatPerr) from same]

theorem indexBits_eq (s : Status) : indexBits s = s &&& 0x000EFE7F := by
  have mask : ~~~jobStatUnkwn &&& ~~~jobStatPdone &&& ~~~jobStatPerr &&& maskIntJobStat =
      0x000EFE7F := by decide
  rw [indexBits, maskStatus, BitVec.and_assoc, BitVec.and_assoc, BitVec.and_assoc,
    ← BitVec.and_assoc (~~~jobStatPdone), ← BitVec.and_assoc (~~~jobStatUnkwn),
    ← BitVec.and_assoc (~~~jobStatUnkwn), mask]

@[simp] theorem index_clear (f : Flag) (s : Status) :
    getIndexOfJStatus (f.clear s) = getIndexOfJStatus s := by
  have outside : ~~~f.bit &&& 0x000EFE7F = 0x000EFE7F := by cases f <;> decide
  refine getIndexOfJStatus_congr ?_
  rw [indexBits_eq, indexBits_eq, Flag.clear, BitVec.and_assoc, outside]

@[simp] theorem index_setState (s n : Status) :
    getIndexOfJStatus (setState s n) = getIndexOfJStatus n := by
  refine getIndexOfJStatus_congr ?_
  have outside : ~~~maskIntJobStat &&& (0x000EFE7F : Status) = 0 := by decide
  rw [indexBits_eq, indexBits_eq, setState, BitVec.and_or_distrib_right, BitVec.and_assoc, outside]
  simp

theorem index_ne_zero (s : Status) : getIndexOfJStatus s ≠ 0 := by
  unfold getIndexOfJStatus
  dsimp only
  split_ifs <;> decide

theorem ne_null_of_index {s : Status} (inTable : (getIndexOfJStatus s).val < numJgrpCounters) :
    s ≠ jobStatNull := by
  rintro rfl
  exact absurd inTable (by decide)

def inClass (i : Fin 9) (s : Status) : Bool := i == jgrpCountNjobs || getIndexOfJStatus s == i

def unit (s : Status) (i : Fin 9) : Int := if inClass i s then 1 else 0

theorem addCount_unit (counts : Fin 9 → Int) (s : Status) (k : Int) (i : Fin 9) :
    addCount (addCount counts (getIndexOfJStatus s) k) 0 k i = counts i + k * unit s i := by
  have ne := index_ne_zero s
  unfold addCount unit inClass
  by_cases zero : i = 0
  · subst zero
    simp [update_of_ne (Ne.symm ne)]
  · rw [update_of_ne zero]
    by_cases eq : i = getIndexOfJStatus s
    · rw [← eq]
      simp
    · rw [update_of_ne eq]
      simp [zero, Ne.symm eq]

/-- What a job with a status has in the counts, if it is not `JOB_STAT_NULL`. -/
def share (s : Status) (i : Fin 9) : Int := if s = jobStatNull then 0 else unit s i

theorem countByJStatus_apply (old new : Status) (counts : Fin 9 → Int) (i : Fin 9) :
    countByJStatus old new counts i = counts i - share old i + share new i := by
  unfold countByJStatus share
  split_ifs <;> simp [addCount_unit, sub_eq_add_neg]

/-! ### Jobs below a node -/

def jobsBelow (s : Mbd) (g : Nat) : List Nat :=
  (List.range s.numNodes).flatMap fun n =>
    if g ∈ nodesUp s.tree s.numNodes (some n) then (s.tree n).jobs else []

def held (s : Mbd) (n : Nat) (i : Fin 9) : Int :=
  ((s.tree n).jobs.countP fun p => inClass i (s.jobs p).jStatus : Nat)

def tally (s : Mbd) (path : Nat → List Nat) (g : Nat) (i : Fin 9) : Int :=
  ∑ n ∈ Finset.range s.numNodes, if g ∈ path n then held s n i else 0

theorem countP_jobsBelow (s : Mbd) (g : Nat) (i : Fin 9) {path : Nat → List Nat}
    (isPath : ∀ n < s.numNodes, nodesUp s.tree s.numNodes (some n) = path n) :
    (((jobsBelow s g).countP fun p => inClass i (s.jobs p).jStatus : Nat) : Int) =
      tally s path g i := by
  rw [jobsBelow, countP_flatMap, tally]
  have cast : ∀ xs : List Nat, ((xs.sum : Nat) : Int) = (xs.map fun x : Nat => (x : Int)).sum := by
    intro xs
    induction xs with
    | nil => rfl
    | cons x xs ih => simp [ih]
  rw [cast, map_map]
  congr 1
  refine map_congr_left fun n mem => ?_
  simp only [Function.comp, isPath n (mem_range.mp mem)]
  split <;> rfl

/-! ### Changes of nodes -/

section Nodes

variable (s : Mbd)

@[simp] theorem setNode_self (n : Nat) (f : TreeNode → TreeNode) :
    (s.setNode n f).tree n = f (s.tree n) := update_self ..

theorem setNode_other {n m : Nat} (ne : m ≠ n) (f : TreeNode → TreeNode) :
    (s.setNode n f).tree m = s.tree m := update_of_ne ne _ _

theorem setNode_keeps {β : Type} (field : TreeNode → β) {f : TreeNode → TreeNode} (n m : Nat)
    (keeps : ∀ node, field (f node) = field node := by intro; rfl) :
    field ((s.setNode n f).tree m) = field (s.tree m) := by
  by_cases eq : m = n
  · rw [eq, setNode_self, keeps]
  · rw [setNode_other s eq]

theorem setNodes_eq {nodes : List Nat} (nodup : nodes.Nodup) (f : TreeNode → TreeNode) :
    s.setNodes nodes f =
      { s with tree := fun m => if m ∈ nodes then f (s.tree m) else s.tree m } := by
  rw [Mbd.setNodes]
  induction nodes generalizing s with
  | nil => simp
  | cons n rest ih =>
    obtain ⟨notIn, nodup⟩ := nodup_cons.mp nodup
    rw [foldl_cons, ih (s.setNode n f) nodup]
    refine congrArg (fun tree => { s with tree }) (funext fun m => ?_)
    by_cases eq : m = n
    · rw [eq, if_neg notIn, if_pos mem_cons_self]
      exact setNode_self s n f
    · rw [setNode_other s eq]
      simp [eq]

end Nodes

end Jhlava.Core
