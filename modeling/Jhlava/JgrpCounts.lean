import Mathlib.Tactic.Ring
import Jhlava.JgrpTally
import Jhlava.JobMoves

/-! The counts of the job group tree are those of the jobs below, after every change
but one: `jStatusChange` in a replay counts a waiting job as suspended, and then makes
it pending. -/
namespace Jhlava.Core
open ParentForest List

/-! ### The invariant -/

/-- The paths of the nodes; only groups have nodes below them. -/
structure Shape (s : Mbd) (path : Nat → List Nat) : Prop where
  isPath : ∀ n, Path (fun n => (s.tree n).parent) (some n) (path n)
  bound : ∀ n < s.numNodes, ∀ m ∈ path n, m < s.numNodes
  inner : ∀ n m, (s.tree n).parent = some m → (s.tree m).nodeType = .group
  fresh : ∀ n, s.numNodes ≤ n → (s.tree n).parent = none

/-- The jobs of the nodes, which point back to them. -/
structure Holding (s : Mbd) : Prop where
  node : ∀ n p, p ∈ (s.tree n).jobs → (s.jobs p).jgrpNode = some n
  nodup : ∀ n, (s.tree n).jobs.Nodup
  alloc : ∀ n p, p ∈ (s.tree n).jobs → p < s.numJobs ∧ n < s.numNodes
  single : ∀ n < s.numNodes, (s.tree n).nodeType = .job → ∃ p, (s.tree n).jobs = [p]
  inTable : ∀ n p, p ∈ (s.tree n).jobs →
    (getIndexOfJStatus (s.jobs p).jStatus).val < numJgrpCounters

def Counted (s : Mbd) (path : Nat → List Nat) : Prop :=
  ∀ g < s.numNodes, (s.tree g).nodeType ≠ .job → ∀ i, (s.tree g).counts i = tally s path g i

structure Grown (s : Mbd) (path : Nat → List Nat) : Prop where
  shape : Shape s path
  holding : Holding s
  counted : Counted s path

section Invariant

variable {s s' : Mbd} {path : Nat → List Nat} {n : Nat}

section

variable (shape : Shape s path)
include shape

theorem Shape.path_eq (n : Nat) : path n = n :: (path n).tail := by
  have step := shape.isPath n
  generalize path n = xs at step ⊢
  cases step
  rfl

theorem Shape.tail (n : Nat) :
    Path (fun n => (s.tree n).parent) (s.tree n).parent (path n).tail := by
  have step := shape.isPath n
  generalize path n = xs at step ⊢
  cases step
  assumption

theorem Shape.length_le (known : n < s.numNodes) : (path n).length ≤ s.numNodes := by
  have sub : path n ⊆ List.range s.numNodes := fun m hm =>
    mem_range.mpr (shape.bound n known m hm)
  have le := (subperm_of_subset (shape.isPath n).nodup sub).length_le
  rwa [length_range] at le

theorem Shape.nodesUp_eq (known : n < s.numNodes) : nodesUp s.tree s.numNodes (some n) = path n :=
  (shape.isPath n).up_eq (shape.length_le known)

theorem Shape.nodesUp_parent (known : n < s.numNodes) :
    nodesUp s.tree s.numNodes (s.tree n).parent = (path n).tail := by
  refine (shape.tail n).up_eq ?_
  have le := shape.length_le known
  rw [shape.path_eq n, length_cons] at le
  omega

theorem Shape.eq_of_mem {m : Nat} (leaf : (s.tree n).nodeType ≠ .group) (mem : n ∈ path m) :
    m = n := by
  rcases (shape.isPath m).eq_or_parent mem with eq | ⟨c, -, parent⟩
  · exact eq.symm
  · exact absurd (shape.inner c n parent) leaf

theorem Shape.congr (numNodes : s'.numNodes = s.numNodes)
    (same : ∀ m, (s'.tree m).parent = (s.tree m).parent ∧
      (s'.tree m).nodeType = (s.tree m).nodeType) :
    Shape s' path := by
  refine ⟨fun n => (shape.isPath n).congr fun m _ => (same m).1, ?_, ?_, ?_⟩
  · rw [numNodes]
    exact shape.bound
  · intro n m parent
    rw [(same n).1] at parent
    rw [(same m).2]
    exact shape.inner n m parent
  · intro n large
    rw [(same n).1]
    exact shape.fresh n (numNodes ▸ large)

end

/-- What is known of each job of a node. -/
def Holds (s : Mbd) (n p : Nat) : Prop :=
  (s.jobs p).jgrpNode = some n ∧ p < s.numJobs ∧ n < s.numNodes ∧
    (getIndexOfJStatus (s.jobs p).jStatus).val < numJgrpCounters

theorem Holding.holds (holding : Holding s) {p : Nat} (mem : p ∈ (s.tree n).jobs) : Holds s n p :=
  ⟨holding.node n p mem, (holding.alloc n p mem).1, (holding.alloc n p mem).2,
    holding.inTable n p mem⟩

theorem holding_of (holds : ∀ n, ∀ p ∈ (s.tree n).jobs, Holds s n p)
    (nodup : ∀ n, (s.tree n).jobs.Nodup)
    (single : ∀ n < s.numNodes, (s.tree n).nodeType = .job → ∃ p, (s.tree n).jobs = [p]) :
    Holding s :=
  ⟨fun n p hp => (holds n p hp).1, nodup, fun n p hp => ⟨(holds n p hp).2.1, (holds n p hp).2.2.1⟩,
    single, fun n p hp => (holds n p hp).2.2.2⟩

theorem Holding.congr (holding : Holding s) (numNodes : s'.numNodes = s.numNodes)
    (numJobs : s.numJobs ≤ s'.numJobs)
    (same : ∀ m, (s'.tree m).nodeType = (s.tree m).nodeType ∧ (s'.tree m).jobs = (s.tree m).jobs)
    (jobs : ∀ m, ∀ q ∈ (s.tree m).jobs, (s'.jobs q).jgrpNode = (s.jobs q).jgrpNode ∧
      getIndexOfJStatus (s'.jobs q).jStatus = getIndexOfJStatus (s.jobs q).jStatus) :
    Holding s' := by
  refine holding_of (fun m p hp => ?_) (fun m => ?_) fun m hm isJob => ?_
  · rw [(same m).2] at hp
    obtain ⟨node, alloc, known, inTable⟩ := holding.holds hp
    rw [Holds, (jobs m p hp).1, (jobs m p hp).2, numNodes]
    exact ⟨node, alloc.trans_le numJobs, known, inTable⟩
  · rw [(same m).2]
    exact holding.nodup m
  · rw [(same m).2]
    exact holding.single m (numNodes ▸ hm) ((same m).1 ▸ isJob)

theorem tally_congr (numNodes : s'.numNodes = s.numNodes)
    (same : ∀ m i, held s' m i = held s m i) (g : Nat) (i : Fin 9) :
    tally s' path g i = tally s path g i := by
  rw [tally, numNodes]
  exact Finset.sum_congr rfl fun m _ => by rw [same m i]

theorem Shape.tally_leaf (shape : Shape s path) (known : n < s.numNodes)
    (leaf : (s.tree n).nodeType ≠ .group) (i : Fin 9) : tally s path n i = held s n i := by
  rw [tally, Finset.sum_eq_single n]
  · rw [if_pos]
    rw [shape.path_eq n]
    exact mem_cons_self
  · intro m _ ne
    exact if_neg fun mem => ne (shape.eq_of_mem leaf mem)
  · intro out
    exact absurd (Finset.mem_range.mpr known) out

theorem Counted.recount (counted : Counted s path) (known : n < s.numNodes) (d : Fin 9 → Int)
    (numNodes : s'.numNodes = s.numNodes)
    (types : ∀ m, (s'.tree m).nodeType = (s.tree m).nodeType)
    (counts : ∀ m i, (s.tree m).nodeType ≠ .job →
      (s'.tree m).counts i = (s.tree m).counts i + if m ∈ path n then d i else 0)
    (helds : ∀ m i, held s' m i = held s m i + if m = n then d i else 0) : Counted s' path := by
  intro g hg notJob i
  rw [numNodes] at hg
  rw [types g] at notJob
  rw [counts g i notJob, counted g hg notJob i, tally, tally, numNodes]
  have split : ∀ m, (if g ∈ path m then held s' m i else 0) =
      (if g ∈ path m then held s m i else 0) + if m = n then (if g ∈ path n then d i else 0)
        else 0 := by
    intro m
    rw [helds m i]
    by_cases eq : m = n
    · subst eq
      simp only [if_true]
      split <;> ring
    · simp [eq]
  rw [Finset.sum_congr rfl fun m _ => split m, Finset.sum_add_distrib,
    Finset.sum_ite_eq' (Finset.range s.numNodes) n, if_pos (Finset.mem_range.mpr known)]

theorem Holding.held_eight (holding : Holding s) (m : Nat) : held s m 8 = 0 := by
  have none : ((s.tree m).jobs.countP fun p => inClass 8 (s.jobs p).jStatus) = 0 := by
    refine countP_eq_zero.mpr fun p hp => ?_
    have lt := holding.inTable m p hp
    have ne : getIndexOfJStatus (s.jobs p).jStatus ≠ 8 := by
      intro eq
      rw [eq] at lt
      exact absurd lt (by decide)
    simp [inClass, jgrpCountNjobs, ne]
  rw [held, none]
  rfl

theorem Grown.tally_eight (grown : Grown s path) (path' : Nat → List Nat) (g : Nat) :
    tally s path' g 8 = 0 := by
  refine Finset.sum_eq_zero fun m _ => ?_
  rw [grown.holding.held_eight m, ite_self]

/-- Only counts change, by `d` at these nodes. -/
structure CountsBy (s s' : Mbd) (nodes : List Nat) (d : Fin 9 → Int) : Prop where
  numNodes : s'.numNodes = s.numNodes
  numJobs : s'.numJobs = s.numJobs
  jobs : s'.jobs = s.jobs
  same : ∀ m, (s'.tree m).parent = (s.tree m).parent ∧
    (s'.tree m).nodeType = (s.tree m).nodeType ∧ (s'.tree m).jobs = (s.tree m).jobs
  counts : ∀ m i, (s.tree m).nodeType ≠ .job →
    (s'.tree m).counts i = (s.tree m).counts i + if m ∈ nodes then d i else 0

variable {d : Fin 9 → Int} {nodes : List Nat}

theorem countsBy_setNodes (nodup : nodes.Nodup) {f : TreeNode → TreeNode}
    (same : ∀ node, (f node).parent = node.parent ∧ (f node).nodeType = node.nodeType ∧
      (f node).jobs = node.jobs)
    (counts : ∀ node i, node.nodeType ≠ .job → (f node).counts i = node.counts i + d i) :
    CountsBy s (s.setNodes nodes f) nodes d := by
  rw [setNodes_eq s nodup]
  refine ⟨rfl, rfl, rfl, fun m => ?_, fun m i notJob => ?_⟩
  · dsimp only
    split
    · exact same _
    · exact ⟨rfl, rfl, rfl⟩
  · dsimp only
    split
    · exact counts _ i notJob
    · rw [add_zero]

theorem Shape.updByJStatus (shape : Shape s path) {p : Nat} (node : (s.jobs p).jgrpNode = some n)
    (known : n < s.numNodes) (old new : Status) :
    CountsBy s (updJgrpCountByJStatus s p old new) (path n) fun i => share new i - share old i := by
  rw [updJgrpCountByJStatus, node, shape.nodesUp_eq known]
  refine countsBy_setNodes (shape.isPath n).nodup (fun node => ?_) fun node i notJob => ?_
  · split <;> exact ⟨rfl, rfl, rfl⟩
  · rw [if_neg notJob]
    change countByJStatus old new node.counts i = _
    rw [countByJStatus_apply]
    ring

theorem Shape.updByOp (shape : Shape s path) (known : n < s.numNodes)
    (notJob : (s.tree n).nodeType ≠ .job) (eight : (s.tree n).counts 8 = 0) (factor : Int) :
    CountsBy s (updJgrpCountByOp s n factor) (path n).tail fun i =>
      factor * (s.tree n).counts i := by
  rw [updJgrpCountByOp, shape.nodesUp_parent known]
  refine countsBy_setNodes (shape.tail n).nodup (fun node => ?_) fun node i _ => ?_
  · split <;> exact ⟨rfl, rfl, rfl⟩
  · rw [if_neg notJob]
    dsimp only
    split
    · rfl
    · rename_i large
      have spare : i = 8 := by
        simp only [numJgrpCounters] at large
        exact Fin.ext (by simp; omega)
      rw [spare, eight, mul_zero, add_zero]

variable (by_ : CountsBy s s' nodes d)
include by_

theorem CountsBy.shape (shape : Shape s path) : Shape s' path :=
  shape.congr by_.numNodes fun m => ⟨(by_.same m).1, (by_.same m).2.1⟩

theorem CountsBy.holding (holding : Holding s) : Holding s' :=
  holding.congr by_.numNodes by_.numJobs.ge (fun m => ⟨(by_.same m).2.1, (by_.same m).2.2⟩)
    fun _ _ _ => by rw [by_.jobs]; exact ⟨rfl, rfl⟩

theorem CountsBy.held (m : Nat) (i : Fin 9) : Core.held s' m i = Core.held s m i := by
  rw [Core.held, Core.held, (by_.same m).2.2, by_.jobs]

end Invariant

end Jhlava.Core
