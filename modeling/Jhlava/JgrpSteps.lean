import Mathlib.Data.List.TakeWhile
import Jhlava.JgrpCounts

/-! What each change of the job group tree does to the paths and the counts. -/
namespace Jhlava.Core
open List Function

variable {s s' : Mbd} {path : Nat → List Nat} {n : Nat}

/-! ### Changes beside the tree -/

/-- The tree stays, and so does the class of every job in it. -/
structure Aside (s s' : Mbd) : Prop where
  numNodes : s'.numNodes = s.numNodes
  numJobs : s.numJobs ≤ s'.numJobs
  tree : s'.tree = s.tree
  jobs : ∀ m, ∀ q ∈ (s.tree m).jobs, (s'.jobs q).jgrpNode = (s.jobs q).jgrpNode ∧
    getIndexOfJStatus (s'.jobs q).jStatus = getIndexOfJStatus (s.jobs q).jStatus

theorem Aside.refl (s : Mbd) : Aside s s := ⟨rfl, le_rfl, rfl, fun _ _ _ => ⟨rfl, rfl⟩⟩

variable {d : Fin 9 → Int} {m : Nat} {s'' : Mbd}

theorem Aside.trans (h : Aside s s') (h' : Aside s' s'') : Aside s s'' where
  numNodes := h'.numNodes.trans h.numNodes
  numJobs := h.numJobs.trans h'.numJobs
  tree := h'.tree.trans h.tree
  jobs m q hq := by
    have first := h.jobs m q hq
    have second := h'.jobs m q (h.tree ▸ hq)
    exact ⟨second.1.trans first.1, second.2.trans first.2⟩

theorem Aside.held (h : Aside s s') (m : Nat) (i : Fin 9) : Core.held s' m i = Core.held s m i := by
  rw [Core.held, h.tree]
  congr 1
  exact countP_congr fun p hp => by rw [inClass, inClass, (h.jobs m p hp).2]

theorem Aside.holding (h : Aside s s') (holding : Holding s) : Holding s' :=
  holding.congr h.numNodes h.numJobs (fun m => by rw [h.tree]; exact ⟨rfl, rfl⟩) h.jobs

theorem Aside.grown (h : Aside s s') (grown : Grown s path) : Grown s' path := by
  refine ⟨grown.shape.congr h.numNodes fun m => ?_, h.holding grown.holding,
    fun g hg notJob i => ?_⟩
  · rw [h.tree]
    exact ⟨rfl, rfl⟩
  · rw [h.tree] at notJob ⊢
    rw [tally_congr h.numNodes h.held]
    exact grown.counted g (h.numNodes ▸ hg) notJob i

theorem aside_update {p : Nat} {j : JData} {numJobs : Nat} (le : s.numJobs ≤ numJobs)
    (off : ∀ m, p ∉ (s.tree m).jobs) :
    Aside s { s with jobs := update s.jobs p j, numJobs } := by
  refine ⟨rfl, le, rfl, fun m q hq => ?_⟩
  dsimp only
  rw [update_of_ne (ne_of_mem_of_not_mem hq (off m))]
  exact ⟨rfl, rfl⟩

theorem Holding.newRecord (holding : Holding s) (j : JData) : Aside s (Core.newRecord s j) :=
  aside_update (Nat.le_succ _) fun m mem => absurd (holding.alloc m _ mem).1 (lt_irrefl _)

/-! ### New nodes and records -/

theorem Shape.parent_lt (shape : Shape s path) (parent : (s.tree n).parent = some m) :
    m < s.numNodes := by
  have known : n < s.numNodes := by
    by_contra large
    rw [shape.fresh n (not_lt.mp large)] at parent
    exact absurd parent (by simp)
  have tail := shape.tail n
  rw [parent] at tail
  refine shape.bound n known m ?_
  rw [shape.path_eq n]
  generalize (path n).tail = xs at tail ⊢
  cases tail
  exact mem_cons_of_mem _ mem_cons_self

theorem Shape.path_fresh (shape : Shape s path) : path s.numNodes = [s.numNodes] := by
  have tail := shape.tail s.numNodes
  rw [shape.fresh _ le_rfl] at tail
  rw [shape.path_eq, tail.unique .root]

theorem Holding.newNode (holding : Holding s) {node : TreeNode}
    (holds : ∀ p ∈ node.jobs, Holds (Core.treeNewNode s node) s.numNodes p)
    (nodup : node.jobs.Nodup) (single : node.nodeType = .job → ∃ p, node.jobs = [p]) :
    Holding (Core.treeNewNode s node) := by
  have self : (Core.treeNewNode s node).tree s.numNodes = node := update_self ..
  have other : ∀ m, m ≠ s.numNodes → (Core.treeNewNode s node).tree m = s.tree m :=
    fun m ne => update_of_ne ne _ _
  refine holding_of (fun m p hp => ?_) (fun m => ?_) fun m hm isJob => ?_ <;>
    by_cases eq : m = s.numNodes
  · rw [eq, self] at hp
    exact eq ▸ holds p hp
  · rw [other m eq] at hp
    obtain ⟨node, alloc, known, inTable⟩ := holding.holds hp
    exact ⟨node, alloc, Nat.lt_succ_of_lt known, inTable⟩
  · rwa [eq, self]
  · rw [other m eq]
    exact holding.nodup m
  · rw [eq, self] at isJob ⊢
    exact single isJob
  · rw [other m eq] at isJob ⊢
    exact holding.single m (lt_of_le_of_ne (Nat.le_of_lt_succ hm) eq) isJob

theorem index_pend : (getIndexOfJStatus jobStatPend).val < numJgrpCounters := by decide

section

variable (grown : Grown s path)
include grown

theorem Grown.treeNewNode {node : TreeNode} (root : node.parent = none)
    (empty : node.nodeType ≠ .job → node.jobs = [] ∧ ∀ i, node.counts i = 0)
    (holding : Holding (Core.treeNewNode s node)) : Grown (Core.treeNewNode s node) path := by
  have shape := grown.shape
  have self : (Core.treeNewNode s node).tree s.numNodes = node := update_self ..
  have other : ∀ m, m ≠ s.numNodes → (Core.treeNewNode s node).tree m = s.tree m :=
    fun m ne => update_of_ne ne _ _
  have parents : ∀ m, ((Core.treeNewNode s node).tree m).parent = (s.tree m).parent := by
    intro m
    by_cases eq : m = s.numNodes
    · rw [eq, self, root, shape.fresh _ le_rfl]
    · rw [other m eq]
  refine ⟨⟨fun m => (shape.isPath m).congr fun k _ => parents k, ?_, ?_, ?_⟩, holding, ?_⟩
  · intro m hm k hk
    rcases Nat.lt_succ_iff_lt_or_eq.mp hm with old | rfl
    · exact Nat.lt_succ_of_lt (shape.bound m old k hk)
    · rw [shape.path_fresh, mem_singleton] at hk
      exact hk ▸ hm
  · intro m k parent
    rw [parents m] at parent
    rw [other k (shape.parent_lt parent).ne]
    exact shape.inner m k parent
  · intro m large
    rw [parents m]
    exact shape.fresh m (Nat.le_of_succ_le large)
  · intro g hg notJob i
    have old : ∀ m ∈ Finset.range s.numNodes, (if g ∈ path m then
        held (Core.treeNewNode s node) m i else 0) = if g ∈ path m then held s m i else 0 := by
      intro m hm
      rw [held, other m (Finset.mem_range.mp hm).ne]
      rfl
    rw [tally, show (Core.treeNewNode s node).numNodes = s.numNodes + 1 from rfl,
      Finset.sum_range_succ, Finset.sum_congr rfl old, shape.path_fresh]
    rcases Nat.lt_succ_iff_lt_or_eq.mp hg with lt | rfl
    · rw [other g lt.ne] at notJob ⊢
      rw [if_neg (by simpa using lt.ne), add_zero]
      exact grown.counted g lt notJob i
    · rw [self] at notJob ⊢
      have none_ : ∀ m ∈ Finset.range s.numNodes,
          (if s.numNodes ∈ path m then held s m i else 0) = 0 := by
        intro m hm
        refine if_neg fun mem => ?_
        exact absurd (shape.bound m (Finset.mem_range.mp hm) _ mem) (lt_irrefl _)
      rw [Finset.sum_eq_zero none_, (empty notJob).2 i, held, self, (empty notJob).1]
      simp

theorem Grown.newGroup : Grown (Core.treeNewNode s { nodeType := .group }) path :=
  grown.treeNewNode rfl (fun _ => ⟨rfl, fun _ => rfl⟩)
    (grown.holding.newNode (by simp) nodup_nil (by simp))

theorem Grown.newArray : Grown (Core.treeNewNode s { nodeType := .array }) path :=
  grown.treeNewNode rfl (fun _ => ⟨rfl, fun _ => rfl⟩)
    (grown.holding.newNode (by simp) nodup_nil (by simp))

theorem Grown.newJobNode (jobId : Int) : Grown (Core.newJobNode s jobId) path := by
  have record := (grown.holding.newRecord { jobId, jgrpNode := some s.numNodes }).grown grown
  refine record.treeNewNode rfl (fun notJob => absurd rfl notJob)
    (record.holding.newNode ?_ (nodup_singleton _) fun _ => ⟨_, rfl⟩)
  intro p hp
  obtain rfl := mem_singleton.mp hp
  have self : (Core.newRecord s { jobId, jgrpNode := some s.numNodes }).jobs s.numJobs =
      { jobId, jgrpNode := some s.numNodes } := update_self ..
  rw [Holds, Core.treeNewNode]
  rw [self]
  exact ⟨rfl, Nat.lt_succ_self _, Nat.lt_succ_self _, index_pend⟩

end

/-! ### Elements of arrays -/

/-- The jobs of one node are others, which is not counted yet. -/
structure Filled (s s' : Mbd) (n : Nat) (d : Fin 9 → Int) : Prop where
  numNodes : s'.numNodes = s.numNodes
  same : ∀ m, (s'.tree m).parent = (s.tree m).parent ∧
    (s'.tree m).nodeType = (s.tree m).nodeType ∧ (s'.tree m).counts = (s.tree m).counts
  holding : Holding s'
  held : ∀ m i, Core.held s' m i = Core.held s m i + if m = n then d i else 0

theorem Filled.trans {d' : Fin 9 → Int} (h : Filled s s' n d) (h' : Filled s' s'' n d') :
    Filled s s'' n fun i => d i + d' i where
  numNodes := h'.numNodes.trans h.numNodes
  same m := ⟨(h'.same m).1.trans (h.same m).1, (h'.same m).2.1.trans (h.same m).2.1,
    (h'.same m).2.2.trans (h.same m).2.2⟩
  holding := h'.holding
  held m i := by
    rw [h'.held, h.held]
    split <;> ring

theorem Filled.shape (filled : Filled s s' n d) (shape : Shape s path) : Shape s' path :=
  shape.congr filled.numNodes fun m => ⟨(filled.same m).1, (filled.same m).2.1⟩

theorem Filled.grown (filled : Filled s s' n d) (grown : Grown s path) (known : n < s.numNodes)
    (by_ : CountsBy s' s'' (path n) d) : Grown s'' path := by
  refine ⟨by_.shape (filled.shape grown.shape), by_.holding filled.holding,
    grown.counted.recount known d (by_.numNodes.trans filled.numNodes) (fun m => ?_)
      (fun m i notJob => ?_) fun m i => ?_⟩
  · exact (by_.same m).2.1.trans (filled.same m).2.1
  · rw [by_.counts m i ((filled.same m).2.1 ▸ notJob), (filled.same m).2.2]
  · rw [by_.held, filled.held]

theorem filled_setNode_jobs (holding : Holding s) {jobs : List Nat}
    (notJob : (s.tree n).nodeType ≠ .job) (nodup : jobs.Nodup)
    (holds : ∀ p ∈ jobs, Holds s n p)
    (more : ∀ i, ((jobs.countP fun p => inClass i (s.jobs p).jStatus : Nat) : Int) =
      held s n i + d i) :
    Filled s (s.setNode n fun node => { node with jobs }) n d := by
  have type := fun m => setNode_keeps s TreeNode.nodeType (f := fun node => { node with jobs }) n m
  refine ⟨rfl, fun m => ⟨setNode_keeps s TreeNode.parent n m, type m,
      setNode_keeps s TreeNode.counts n m⟩,
    holding_of (fun m p hp => ?_) (fun m => ?_) fun m hm isJob => ?_, fun m i => ?_⟩ <;>
    by_cases eq : m = n
  · rw [eq, setNode_self] at hp
    exact eq ▸ holds p hp
  · rw [setNode_other s eq] at hp
    exact holding.holds hp
  · rwa [eq, setNode_self]
  · rw [setNode_other s eq]
    exact holding.nodup m
  · rw [type, eq] at isJob
    exact absurd isJob notJob
  · rw [setNode_other s eq] at isJob ⊢
    exact holding.single m hm isJob
  · rw [held, eq, setNode_self, if_pos rfl, ← more i]
    rfl
  · rw [held, setNode_other s eq, if_neg eq]
    rfl

theorem share_unit {st : Status} (inTable : (getIndexOfJStatus st).val < numJgrpCounters)
    (i : Fin 9) : share st i = unit st i := if_neg (ne_null_of_index inTable)

@[simp] theorem share_null (i : Fin 9) : share jobStatNull i = 0 := if_pos rfl

theorem countP_single (s : Mbd) (p : Nat) (i : Fin 9) :
    ((List.countP (fun p => inClass i (s.jobs p).jStatus) [p] : Nat) : Int) =
      unit (s.jobs p).jStatus i := by
  rw [countP_singleton, unit]
  split <;> rfl

theorem index_element (hold : Bool) :
    (getIndexOfJStatus (elementStatus hold)).val < numJgrpCounters := by
  cases hold <;> decide

theorem filled_copyElement (holding : Holding s) (known : n < s.numNodes)
    (array : (s.tree n).nodeType = .array) (hold : Bool) (jobId : Int) :
    Filled s (copyElement n hold s jobId) n (unit (elementStatus hold)) := by
  let j : JData := { jobId, jStatus := elementStatus hold, hold, jgrpNode := some n }
  have self : (Core.newRecord s j).jobs s.numJobs = j := update_self ..
  have record : Filled s (Core.newRecord s j) n fun _ => 0 :=
    ⟨rfl, fun _ => ⟨rfl, rfl, rfl⟩, (holding.newRecord j).holding holding, fun m i => by
      rw [(holding.newRecord j).held, ite_self, add_zero]⟩
  have copied : Filled (Core.newRecord s j) ((Core.newRecord s j).setNode n fun node =>
      { node with jobs := (s.tree n).jobs ++ [s.numJobs] }) n (unit (elementStatus hold)) := by
    refine filled_setNode_jobs record.holding (by simp [Core.newRecord, array]) ?_ ?_ ?_
    · refine (holding.nodup n).append (nodup_singleton _) fun p hp hq => ?_
      obtain rfl := mem_singleton.mp hq
      exact absurd (holding.alloc n _ hp).1 (lt_irrefl _)
    · intro p hp
      rcases mem_append.mp hp with old | new
      · exact record.holding.holds old
      · obtain rfl := mem_singleton.mp new
        rw [Holds, self]
        exact ⟨rfl, Nat.lt_succ_self _, known, index_element hold⟩
    · intro i
      rw [countP_append, Nat.cast_add, countP_single, self]
      rfl
  have both := record.trans copied
  simp only [zero_add] at both
  exact both

theorem Grown.putElement (grown : Grown s path) (known : n < s.numNodes)
    (array : (s.tree n).nodeType = .array) (jobId : Int) (hold : Bool) :
    Grown (Core.putElement (Core.newRecord s { jobId, jStatus := elementStatus hold, hold }) n
      s.numJobs) path := by
  have filled := filled_copyElement grown.holding known array hold jobId
  have put : Core.putElement (Core.newRecord s { jobId, jStatus := elementStatus hold, hold }) n
      s.numJobs = updJgrpCountByJStatus (copyElement n hold s jobId) s.numJobs jobStatNull
        (elementStatus hold) := by
    simp [Core.putElement, Mbd.setJob, Mbd.setNode, copyElement, Core.newRecord]
  have node : ((copyElement n hold s jobId).jobs s.numJobs).jgrpNode = some n := by
    simp [copyElement, Mbd.setNode, Core.newRecord]
  have by_ := (filled.shape grown.shape).updByJStatus node known jobStatNull (elementStatus hold)
  simp only [share_null, sub_zero, share_unit (index_element hold)] at by_
  rw [put]
  exact filled.grown grown known by_

theorem Grown.offArray (grown : Grown s path) {jp : Nat}
    (at_ : ∀ n, (s.jobs jp).jgrpNode = some n → jp ∈ (s.tree n).jobs) :
    Grown (Core.offArray s jp) path := by
  rw [Core.offArray]
  split
  · exact grown
  · rename_i n node
    split
    · exact grown
    · rename_i array
      have mem := at_ n node
      have known := (grown.holding.alloc n jp mem).2
      have filled :
        Filled s (s.setNode n fun node => { node with jobs := (s.tree n).jobs.erase jp }) n
          fun i => - unit (s.jobs jp).jStatus i := by
        refine filled_setNode_jobs grown.holding ?_ ((grown.holding.nodup n).erase _) ?_ ?_
        · rw [not_not.mp array]
          simp
        · exact fun p hp => grown.holding.holds (mem_of_mem_erase hp)
        · intro i
          have all := (perm_cons_erase mem).countP_eq fun p => inClass i (s.jobs p).jStatus
          have split_ := countP_single s jp i
          rw [held, all, ← singleton_append, countP_append, Nat.cast_add, split_]
          ring
      have by_ := (filled.shape grown.shape).updByJStatus (p := jp) (n := n) node known
        (s.jobs jp).jStatus jobStatNull
      simp only [share_null, zero_sub, share_unit (grown.holding.inTable n jp mem)] at by_
      exact filled.grown grown known by_

theorem filled_copyElements (holding : Holding s) (known : n < s.numNodes)
    (array : (s.tree n).nodeType = .array) (hold : Bool) (ids : List Int) :
    Filled s (ids.foldl (copyElement n hold) s) n fun i =>
      ids.length * unit (elementStatus hold) i := by
  induction ids generalizing s with
  | nil => exact ⟨rfl, fun _ => ⟨rfl, rfl, rfl⟩, holding, fun m i => by simp⟩
  | cons jobId ids ih =>
    have first := filled_copyElement holding known array hold jobId
    have rest := ih first.holding (first.numNodes ▸ known) ((first.same n).2.1.trans array)
    have all := first.trans rest
    have total : (fun i => unit (elementStatus hold) i + ids.length * unit (elementStatus hold) i) =
        fun i => ((jobId :: ids).length : Int) * unit (elementStatus hold) i := by
      funext i
      push_cast [length_cons]
      ring
    rw [total] at all
    exact all

theorem countsBy_setNode (s : Mbd) (n : Nat) (counts : (Fin 9 → Int) → Fin 9 → Int) :
    CountsBy s (s.setNode n fun node => { node with counts := counts node.counts }) [n] fun i =>
      counts (s.tree n).counts i - (s.tree n).counts i := by
  refine ⟨rfl, rfl, rfl, fun m => ⟨setNode_keeps s TreeNode.parent n m,
    setNode_keeps s TreeNode.nodeType n m,
    setNode_keeps s TreeNode.jobs n m⟩, fun m i _ => ?_⟩
  by_cases eq : m = n
  · rw [eq, setNode_self, if_pos mem_cons_self]
    ring
  · rw [setNode_other s eq, if_neg (by simpa using eq), add_zero]

theorem assigned_counts {counts : Fin 9 → Int} (zero : ∀ i, counts i = 0) (st : Status) (len : Int)
    (i : Fin 9) :
    update (update counts (getIndexOfJStatus st) len) 0 len i =
      len * unit st i := by
  simp only [unit, inClass, update_apply]
  by_cases first : i = 0
  · simp [first]
  · by_cases here : i = getIndexOfJStatus st
    · simp [← here]
    · simp [first, here, Ne.symm here, zero i]

/-- The elements of an array are counted at once: their number is the count of the
array, and is added to those above. -/
theorem Grown.handleNewJobArray (grown : Grown s path) (known : n < s.numNodes)
    (array : (s.tree n).nodeType = .array) (empty : (s.tree n).jobs = []) (ids : List Int)
    (hold : Bool) : Grown (Core.handleNewJobArray s n ids hold) path := by
  have filled := filled_copyElements grown.holding known array hold ids
  rw [Core.handleNewJobArray]
  generalize ids.foldl (copyElement n hold) s = s1 at filled
  have zero : ∀ i, (s.tree n).counts i = 0 := by
    intro i
    rw [grown.counted n known (by simp [array]) i,
      grown.shape.tally_leaf known (by simp [array]) i, held, empty]
    rfl
  have assigned := countsBy_setNode s1 n fun counts => update (update counts
    (getIndexOfJStatus (elementStatus hold)) ids.length) 0 ids.length
  generalize s1.setNode n _ = s2 at assigned
  have notJob : ∀ m, (s.tree m).nodeType ≠ .job → (s1.tree m).nodeType ≠ .job := by
    intro m notJob
    rwa [(filled.same m).2.1]
  have counts : ∀ m i, (s.tree m).nodeType ≠ .job → (s2.tree m).counts i = (s.tree m).counts i +
      if m = n then ids.length * unit (elementStatus hold) i else 0 := by
    intro m i isNot
    rw [assigned.counts m i (notJob m isNot), (filled.same n).2.2, (filled.same m).2.2]
    simp [assigned_counts zero, zero, sub_zero]
  have array' : (s.tree n).nodeType ≠ .job := by simp [array]
  have out : inClass 8 (elementStatus hold) = false := by cases hold <;> decide
  have shape := assigned.shape (filled.shape grown.shape)
  have numNodes := assigned.numNodes.trans filled.numNodes
  have above := shape.updByOp (n := n) (numNodes ▸ known)
    (by rw [(assigned.same n).2.1]; exact notJob n array')
    (by rw [counts n 8 array', zero, unit, out]; simp) 1
  refine ⟨above.shape shape, above.holding (assigned.holding filled.holding),
    grown.counted.recount known (fun i => ids.length * unit (elementStatus hold) i)
      (above.numNodes.trans numNodes) (fun m => ?_) (fun m i isNot => ?_) fun m i => ?_⟩
  · exact ((above.same m).2.1.trans (assigned.same m).2.1).trans (filled.same m).2.1
  · have nodup := (grown.shape.isPath n).nodup
    rw [grown.shape.path_eq n] at nodup ⊢
    rw [above.counts m i (by rw [(assigned.same m).2.1]; exact notJob m isNot), counts m i isNot,
      counts n i array', zero i]
    by_cases eq : m = n
    · rw [eq, if_neg (nodup_cons.mp nodup).1]
      simp
    · simp [eq]
  · rw [above.held, assigned.held, filled.held]

/-! ### Nodes put under a group and clipped -/

theorem Shape.mem_tail (shape : Shape s path) (ne : m ≠ n) : m ∈ path n ↔ m ∈ (path n).tail := by
  have cons := shape.path_eq n
  generalize (path n).tail = xs at cons ⊢
  rw [cons, mem_cons, or_iff_right ne]

theorem Shape.updJgrpCount (shape : Shape s path) (holding : Holding s) (known : n < s.numNodes)
    (amount : Fin 9 → Int) (factor : Int) (status : Nat → Status × Status)
    (ofJob : (s.tree n).nodeType = .job → ∀ i, held s n i = amount i)
    (ofOther : (s.tree n).nodeType ≠ .job → ∀ i, (s.tree n).counts i = amount i)
    (eight : amount 8 = 0)
    (shares : ∀ p ∈ (s.tree n).jobs, ∀ i, share (status p).2 i - share (status p).1 i =
      factor * unit (s.jobs p).jStatus i) :
    CountsBy s (Core.updJgrpCount s n factor status) (path n).tail fun i => factor * amount i := by
  rw [Core.updJgrpCount]
  split
  · rename_i isJob
    obtain ⟨p, single⟩ := holding.single n known isJob
    have mem : p ∈ (s.tree n).jobs := single ▸ mem_singleton_self p
    have amounts : ∀ i, amount i = unit (s.jobs p).jStatus i := by
      intro i
      rw [← ofJob isJob i, held, single, countP_single]
    have by_ := shape.updByJStatus (holding.node n p mem) known (status p).1 (status p).2
    rw [single, foldl_cons, foldl_nil]
    refine ⟨by_.numNodes, by_.numJobs, by_.jobs, by_.same, fun m i notJob => ?_⟩
    have ne : m ≠ n := by
      rintro rfl
      exact notJob isJob
    rw [by_.counts m i notJob, shares p mem i, amounts i]
    simp [shape.mem_tail ne]
  · rename_i notJob
    have by_ := shape.updByOp known notJob ((ofOther notJob 8).trans eight) factor
    refine ⟨by_.numNodes, by_.numJobs, by_.jobs, by_.same, fun m i isNot => ?_⟩
    rw [by_.counts m i isNot, ofOther notJob i]

theorem tally_prolong {path' : Nat → List Nat} {c g : Nat} {Q : Prop} [Decidable Q]
    (numNodes : s'.numNodes = s.numNodes) (helds : ∀ m i, held s' m i = held s m i)
    (mem : ∀ m, g ∈ path' m ↔ g ∈ path m ∨ c ∈ path m ∧ Q)
    (apart : ∀ m, g ∈ path m → c ∈ path m → ¬ Q) (i : Fin 9) :
    tally s' path' g i = tally s path g i + if Q then tally s path c i else 0 := by
  have each : ∀ m, (if g ∈ path' m then held s' m i else 0) =
      (if g ∈ path m then held s m i else 0) +
        if Q then (if c ∈ path m then held s m i else 0) else 0 := by
    intro m
    by_cases h : g ∈ path m <;> by_cases h' : c ∈ path m <;> by_cases q : Q <;> simp_all
  rw [tally, numNodes, Finset.sum_congr rfl fun m _ => each m, Finset.sum_add_distrib, tally]
  split
  · rfl
  · rw [Finset.sum_const_zero]

section Insert

variable {parent child : Nat}

def linkedPath (path : Nat → List Nat) (parent child m : Nat) : List Nat :=
  if child ∈ path m then path m ++ path parent else path m

theorem parents_setParent (s : Mbd) (n : Nat) (q : Option Nat) :
    (fun m => ((s.setNode n fun node => { node with parent := q }).tree m).parent) =
      update (fun m => (s.tree m).parent) n q := by
  funext m
  by_cases eq : m = n
  · rw [eq, setNode_self, update_self]
  · rw [setNode_other s eq, update_of_ne eq]

theorem tree_setParent (s : Mbd) (n : Nat) (q : Option Nat) (m : Nat) :
    let node := (s.setNode n fun node => { node with parent := q }).tree m
    node.nodeType = (s.tree m).nodeType ∧ node.jobs = (s.tree m).jobs ∧
      node.counts = (s.tree m).counts :=
  ⟨setNode_keeps s TreeNode.nodeType n m,
    setNode_keeps s TreeNode.jobs n m,
    setNode_keeps s TreeNode.counts n m⟩

theorem Holding.setParent (holding : Holding s) (n : Nat) (q : Option Nat) :
    Holding (s.setNode n fun node => { node with parent := q }) :=
  holding.congr rfl le_rfl
    (fun m => ⟨(tree_setParent s n q m).1, (tree_setParent s n q m).2.1⟩) fun _ _ _ => ⟨rfl, rfl⟩

theorem held_setParent (s : Mbd) (n : Nat) (q : Option Nat) (m : Nat) (i : Fin 9) :
    held (s.setNode n fun node => { node with parent := q }) m i = held s m i := by
  rw [held, (tree_setParent s n q m).2.1]
  rfl

theorem Shape.link (shape : Shape s path) (knownParent : parent < s.numNodes)
    (knownChild : child < s.numNodes) (group : (s.tree parent).nodeType = .group)
    (root : (s.tree child).parent = none) (apart : child ∉ path parent) :
    Shape (s.setNode child fun node => { node with parent := some parent })
      (linkedPath path parent child) := by
  have parents := parents_setParent s child (some parent)
  constructor
  · intro m
    rw [parents, linkedPath]
    split
    · rename_i mem
      exact (shape.isPath m).link mem root (shape.isPath parent) apart
    · rename_i notIn
      exact (shape.isPath m).link_other notIn _
  · intro m hm k hk
    rw [linkedPath] at hk
    split at hk
    · rcases mem_append.mp hk with here | above
      · exact shape.bound m hm k here
      · exact shape.bound parent knownParent k above
    · exact shape.bound m hm k hk
  · intro m k up
    have up' : update (fun m => (s.tree m).parent) child (some parent) m = some k := by
      rw [← parents]
      exact up
    rw [(tree_setParent s child (some parent) k).1]
    by_cases eq : m = child
    · rw [eq, update_self] at up'
      rw [← Option.some.inj up']
      exact group
    · rw [update_of_ne eq] at up'
      exact shape.inner m k up'
  · intro m large
    have ne : m ≠ child := (lt_of_lt_of_le knownChild large).ne'
    rw [setNode_other s ne]
    exact shape.fresh m large

theorem Grown.treeInsertChild (grown : Grown s path)
    (proper : Proper s (.treeInsertChild parent child)) :
    Grown (Core.treeInsertChild s parent child) (linkedPath path parent child) := by
  obtain ⟨knownParent, knownChild, group, root, apart⟩ := proper
  rw [grown.shape.nodesUp_eq knownParent] at apart
  have shape := grown.shape.link knownParent knownChild group root apart
  have tree := tree_setParent s child (some parent)
  have holding := grown.holding.setParent child (some parent)
  have helds := held_setParent s child (some parent)
  have prolonged : (linkedPath path parent child child).tail = path parent := by
    have tail := grown.shape.tail child
    rw [root] at tail
    have single : path child = [child] := by rw [grown.shape.path_eq, tail.unique .root]
    simp [linkedPath, single]
  have by_ := shape.updJgrpCount (n := child) holding knownChild (tally s path child) 1
    (fun p => (jobStatNull, (s.jobs p).jStatus)) (fun isJob i => by
      rw [(tree child).1] at isJob
      rw [helds, grown.shape.tally_leaf knownChild (by simp [isJob])])
    (fun notJob i => by
      rw [(tree child).1] at notJob
      rw [(tree child).2.2, grown.counted child knownChild notJob])
    (grown.tally_eight path child) fun p mem i => by
      rw [(tree child).2.1] at mem
      rw [share_null, sub_zero, one_mul]
      exact share_unit (grown.holding.inTable child p mem) i
  rw [prolonged] at by_
  change Grown (Core.updJgrpCount _ child 1 fun p => (jobStatNull, (s.jobs p).jStatus)) _
  generalize Core.updJgrpCount _ child 1 _ = s2 at by_ ⊢
  refine ⟨by_.shape shape, by_.holding holding, fun g hg notJob i => ?_⟩
  rw [by_.numNodes] at hg
  rw [(by_.same g).2.1] at notJob
  rw [by_.counts g i notJob, (tree g).2.2, one_mul]
  rw [(tree g).1] at notJob
  rw [grown.counted g hg notJob i]
  have numNodes : s2.numNodes = s.numNodes := by_.numNodes
  refine (tally_prolong numNodes (fun m i => (by_.held m i).trans (helds m i)) (fun m => ?_)
    (fun m here through above => ?_) i).symm
  · rw [linkedPath]
    split
    · rename_i through
      rw [mem_append, and_iff_right through]
    · rename_i aside
      simp [aside]
  · have root_mem := (grown.shape.isPath m).root_mem through root here (grown.shape.isPath g)
    exact apart ((grown.shape.isPath parent).subset above (grown.shape.isPath g) root_mem)

end Insert

section Clip

def clippedPath (path : Nat → List Nat) (n m : Nat) : List Nat :=
  if n ∈ path m then (path m).takeWhile (· ≠ n) ++ [n] else path m

theorem Shape.split (shape : Shape s path) (mem : n ∈ path m) :
    path m = clippedPath path n m ++ (path n).tail := by
  obtain ⟨before, after, split, first, rest⟩ := (shape.isPath m).split mem
  have tail : path n = n :: after := (shape.isPath n).unique rest
  have cut : (path m).takeWhile (· ≠ n) = before := by
    rw [split, takeWhile_append_of_pos]
    · simp
    · intro k hk
      exact decide_eq_true (ne_of_mem_of_not_mem hk first)
  rw [clippedPath, cut, tail, split]
  simp

theorem Shape.clip (shape : Shape s path) (n : Nat) :
    Shape (s.setNode n fun node => { node with parent := none }) (clippedPath path n) := by
  have parents := parents_setParent s n none
  have sub : ∀ m, clippedPath path n m ⊆ path m := by
    intro m
    by_cases mem : n ∈ path m
    · conv_rhs => rw [shape.split mem]
      exact subset_append_left _ _
    · rw [clippedPath, if_neg mem]
      exact List.Subset.refl _
  have kept : ∀ m k, ((s.setNode n fun node => { node with parent := none }).tree m).parent =
      some k → (s.tree m).parent = some k := by
    intro m k up
    by_cases eq : m = n
    · rw [eq] at up
      exact absurd up (by simp)
    · rwa [setNode_other s eq] at up
  constructor
  · intro m
    rw [parents]
    by_cases mem : n ∈ path m
    · have path_m := shape.isPath m
      have split := shape.split mem
      rw [clippedPath, if_pos mem] at split ⊢
      rw [split, append_assoc] at path_m
      exact path_m.cut fun inside => by simpa using mem_takeWhile_imp inside
    · rw [clippedPath, if_neg mem]
      exact (shape.isPath m).link_other mem _
  · exact fun m hm k hk => shape.bound m hm k (sub m hk)
  · intro m k up
    rw [(tree_setParent s n none k).1]
    exact shape.inner m k (kept m k up)
  · intro m large
    by_contra some_
    obtain ⟨k, up⟩ := Option.ne_none_iff_exists'.mp some_
    have up := kept m k up
    rw [shape.fresh m large] at up
    exact absurd up (by simp)

theorem Grown.treeClip (grown : Grown s path) (known : n < s.numNodes) :
    Grown (Core.treeClip s n) (clippedPath path n) := by
  have shape := grown.shape
  have by_ := shape.updJgrpCount grown.holding known (tally s path n) (-1)
    (fun p => ((s.jobs p).jStatus, jobStatNull))
    (fun isJob i => (shape.tally_leaf known (by simp [isJob]) i).symm)
    (fun notJob i => grown.counted n known notJob i)
    (grown.tally_eight path n) fun p mem i => by
      rw [share_null, zero_sub, neg_one_mul, share_unit (grown.holding.inTable n p mem)]
  rw [Core.treeClip]
  generalize Core.updJgrpCount s n (-1) _ = s1 at by_
  have tree := tree_setParent s1 n none
  refine ⟨(by_.shape shape).clip n, (by_.holding grown.holding).setParent n none,
    fun g hg notJob i => ?_⟩
  have known : g < s.numNodes := by
    rw [← by_.numNodes]
    exact hg
  rw [(tree g).1, (by_.same g).2.1] at notJob
  rw [(tree g).2.2, by_.counts g i notJob, grown.counted g known notJob i]
  have through : ∀ m, n ∈ clippedPath path n m ↔ n ∈ path m := by
    intro m
    rw [clippedPath]
    split
    · rename_i mem
      simp [mem]
    · exact Iff.rfl
  have helds : ∀ m i,
      held s m i = held (s1.setNode n fun node => { node with parent := none }) m i :=
    fun m i => ((held_setParent s1 n none m i).trans (by_.held m i)).symm
  have numNodes : s.numNodes = (s1.setNode n fun node => { node with parent := none }).numNodes :=
    by_.numNodes.symm
  have same : tally (s1.setNode n fun node => { node with parent := none })
    (clippedPath path n) n i = tally s path n i := by
    rw [tally, ← numNodes]
    refine Finset.sum_congr rfl fun m _ => ?_
    rw [← helds m i]
    simp [through m]
  rw [tally_prolong (g := g) (c := n) (Q := g ∈ (path n).tail) numNodes helds (fun m => ?_)
    (fun m here mem above => ?_) i, same]
  · split <;> ring
  · rw [through m]
    by_cases mem : n ∈ path m
    · conv_lhs => rw [shape.split mem]
      rw [mem_append, and_iff_right mem]
    · rw [clippedPath, if_neg mem]
      simp [mem]
  · have nodup := (shape.isPath m).nodup
    rw [shape.split ((through m).mp mem)] at nodup
    exact (nodup_append.mp nodup).2.2 g here g above rfl

end Clip

/-! ### Status changes -/

section Asides

variable (p : Nat)
include p

theorem aside_setJob (s : Mbd) {f : JData → JData}
    (keeps : ∀ j, (f j).jgrpNode = j.jgrpNode ∧
      getIndexOfJStatus (f j).jStatus = getIndexOfJStatus j.jStatus) :
    Aside s (s.setJob p f) := by
  refine ⟨rfl, le_rfl, rfl, fun m q _ => ?_⟩
  by_cases eq : q = p
  · rw [eq, setJob_self]
    exact keeps _
  · rw [show (s.setJob p f).jobs q = s.jobs q from update_of_ne eq _ _]
    exact ⟨rfl, rfl⟩

theorem aside_offJobList (s : Mbd) (l : ListNo) : Aside s (offJobList s p l) :=
  ⟨rfl, le_rfl, rfl, fun _ _ _ => ⟨rfl, rfl⟩⟩

theorem aside_link (s : Mbd) (succ : Entry) : Aside s (s.link succ p) :=
  ⟨rfl, le_rfl, rfl, fun _ _ _ => ⟨rfl, rfl⟩⟩

theorem aside_inPendJobList (g : Globals) (s : Mbd) (l : ListNo) (t : Int) :
    Aside s (inPendJobList g s p l t) := by
  refine Aside.trans (aside_setJob p s ?_) (aside_link _ _ _)
  exact fun j => ⟨rfl, rfl⟩

theorem aside_jobStarts (s : Mbd) : Aside s (jobStarts s p) := by
  refine Aside.trans (aside_setJob p s ?_) ((aside_offJobList _ _ _).trans (aside_link _ _ _))
  exact fun j => ⟨rfl, index_clear _ _⟩

theorem aside_jobFinishes (s : Mbd) (oldStatus : Status) : Aside s (jobFinishes s p oldStatus) := by
  have exits : Aside s (s.setJob p exitReason) := by
    refine aside_setJob p s fun j => ?_
    rw [exitReason]
    split <;> exact ⟨rfl, rfl⟩
  refine exits.trans (Aside.trans (aside_setJob p _ ?_)
    ((aside_offJobList _ _ _).trans (aside_link _ _ _)))
  exact fun j => ⟨rfl, index_clear _ _⟩

theorem aside_inPendOrMig (g : Globals) (s : Mbd) (migTime time : Int) :
    Aside s (inPendOrMig g s p migTime time) := by
  rw [inPendOrMig]
  split_ifs
  · refine (aside_inPendJobList p g s .pjl migTime).trans (aside_setJob p _ ?_)
    exact fun j => ⟨rfl, index_clear _ _⟩
  · exact aside_inPendJobList p g s .mjl 0
  · exact aside_inPendJobList p g s .pjl time

theorem aside_jobPends (g : Globals) (s : Mbd) : Aside s (jobPends g s p) := by
  have times : Aside (offJobList s p .sjl) ((offJobList s p .sjl).setJob p resetStartTime) := by
    refine aside_setJob p _ fun j => ?_
    rw [resetStartTime]
    split <;> exact ⟨rfl, rfl⟩
  rw [jobPends]
  refine (((aside_offJobList p s .sjl).trans times).trans (aside_inPendOrMig p g _ _ _)).trans
    (aside_setJob p _ ?_)
  exact fun j => ⟨rfl, index_clear _ _⟩

theorem aside_moveJob (g : Globals) (s : Mbd) (oldStatus newStatus : Status) :
    Aside s (moveJob g s p oldStatus newStatus) := by
  rw [moveJob]
  split_ifs
  · exact aside_jobStarts p s
  · exact aside_jobFinishes p s oldStatus
  · exact aside_jobPends p g s
  · exact aside_setJob p s fun j => ⟨rfl, rfl⟩
  · exact .refl s

end Asides

theorem index_endReserves (newStatus : Status) (eventTime : Int) (st : Status) :
    getIndexOfJStatus (endReserves newStatus eventTime st) = getIndexOfJStatus st := by
  have reserve : getIndexOfJStatus (resetReserve newStatus st) = getIndexOfJStatus st := by
    rw [resetReserve]
    dsimp only
    split_ifs <;> simp
  rw [endReserves]
  split_ifs <;> simp [reserve]

theorem index_writeStatus (newStatus : Status) (j : JData) :
    (writeStatus newStatus j).jgrpNode = j.jgrpNode ∧
    getIndexOfJStatus (writeStatus newStatus j).jStatus = getIndexOfJStatus newStatus := by
  rw [writeStatus]
  split <;> exact ⟨rfl, index_setState _ _⟩

/-- A job of a node gets another status, which its path counts. -/
theorem Grown.restatus (grown : Grown s path) {p : Nat} {new : Status} (mem : p ∈ (s.tree n).jobs)
    (inTable : (getIndexOfJStatus new).val < numJgrpCounters)
    (by_ : CountsBy s s' (path n) fun i => share new i - share (s.jobs p).jStatus i)
    {f : JData → JData} (keeps : ∀ j, (f j).jgrpNode = j.jgrpNode)
    (writes : ∀ j, getIndexOfJStatus (f j).jStatus = getIndexOfJStatus new) :
    Grown (s'.setJob p f) path := by
  have known := (grown.holding.alloc n p mem).2
  have after := by_.holding grown.holding
  have self : (s'.setJob p f).jobs p = f (s.jobs p) := by rw [setJob_self, by_.jobs]
  have other : ∀ q, q ≠ p → (s'.setJob p f).jobs q = s.jobs q := by
    intro q ne
    rw [← by_.jobs]
    exact update_of_ne ne _ _
  have jobs : ∀ m, ((s'.setJob p f).tree m).jobs = (s.tree m).jobs := fun m => (by_.same m).2.2
  have class_ : ∀ i, inClass i (f (s.jobs p)).jStatus = inClass i new := by
    intro i
    rw [inClass, inClass, writes]
  have helds : ∀ m i, held (s'.setJob p f) m i = held s m i + if m = n then
      share new i - share (s.jobs p).jStatus i else 0 := by
    intro m i
    have elsewhere : ∀ q ∈ (s.tree m).jobs, q ≠ p →
        inClass i ((s'.setJob p f).jobs q).jStatus = inClass i (s.jobs q).jStatus :=
      fun q _ ne => by rw [other q ne]
    rw [held, held, jobs m]
    by_cases eq : m = n
    · subst eq
      have perm := perm_cons_erase mem
      have rest : ((s.tree m).jobs.erase p).countP
          (fun q => inClass i ((s'.setJob p f).jobs q).jStatus) =
          ((s.tree m).jobs.erase p).countP fun q => inClass i (s.jobs q).jStatus := by
        refine countP_congr fun q hq => ?_
        have ne := ((grown.holding.nodup m).mem_erase_iff.mp hq).1
        rw [elsewhere q (mem_of_mem_erase hq) ne]
      rw [perm.countP_eq, perm.countP_eq, ← singleton_append, countP_append,
        countP_append, rest, Nat.cast_add, Nat.cast_add, countP_single, countP_single, self,
        unit, class_, if_pos rfl, share_unit inTable, share_unit (grown.holding.inTable m p mem),
        unit, unit]
      ring
    · rw [if_neg eq]
      congr 1
      refine countP_congr fun q hq => ?_
      have ne : q ≠ p := by
        rintro rfl
        exact eq (Option.some.inj ((grown.holding.node m q hq).symm.trans
          (grown.holding.node n q mem)))
      rw [elsewhere q hq ne]
  refine ⟨(by_.shape grown.shape).congr rfl fun m => ⟨rfl, rfl⟩,
    holding_of (fun m q hq => ?_) after.nodup after.single,
    grown.counted.recount known _ by_.numNodes (fun m => (by_.same m).2.1)
      (fun m i notJob => by_.counts m i notJob) helds⟩
  obtain ⟨node, alloc, known, counted⟩ := after.holds (n := m) hq
  by_cases eq : q = p
  · rw [eq] at node alloc
    rw [Holds, eq, setJob_self, keeps, writes]
    exact ⟨node, alloc, known, inTable⟩
  · rw [Holds, other q eq, ← by_.jobs]
    exact ⟨node, alloc, known, counted⟩

/-- The changes of `jStatusChange` that are counted: the job is counted at all, its new
status is in the table, and no replay puts it back afterwards. -/
def Countable (s : Mbd) : TreeStep → Prop
  | .jStatusChange g jp newStatus eventTime =>
    sameStatus (s.jobs jp).jStatus newStatus = true ∨
    0 ≤ (s.jobs jp).jobId ∧
    (getIndexOfJStatus (maskStatus newStatus)).val < numJgrpCounters ∧
    putsBack g (s.jobs jp).jStatus (maskStatus newStatus) eventTime = false
  | _ => True

theorem Grown.jStatusChange (grown : Grown s path) {g : Globals} {jp : Nat} {newStatus : Status}
    {eventTime : Int} (at_ : ∀ n, (s.jobs jp).jgrpNode = some n → jp ∈ (s.tree n).jobs)
    (countable : Countable s (.jStatusChange g jp newStatus eventTime)) :
    Grown (Core.jStatusChange g s jp newStatus eventTime) path := by
  rw [Core.jStatusChange]
  rcases countable with same | ⟨counted, inTable, stays⟩
  · rw [if_pos same]
    exact grown
  · split
    · exact grown
    · dsimp only
      rw [stays]
      refine (aside_moveJob jp g _ _ _).grown ?_
      rw [beforeChange]
      have reserves : Aside s (s.setJob jp fun j =>
          { j with jStatus := endReserves (maskStatus newStatus) eventTime j.jStatus }) :=
        aside_setJob jp s fun j => ⟨rfl, index_endReserves _ _ _⟩
      have node : ((s.setJob jp fun j => { j with
          jStatus := endReserves (maskStatus newStatus) eventTime j.jStatus }).jobs jp).jgrpNode =
          (s.jobs jp).jgrpNode := by rw [setJob_self]
      have jobId : 0 ≤ ((s.setJob jp fun j => { j with
          jStatus := endReserves (maskStatus newStatus) eventTime j.jStatus }).jobs jp).jobId := by
        rw [setJob_self]
        exact counted
      generalize s.setJob jp _ = s1 at reserves node jobId
      have grown1 := reserves.grown grown
      rw [if_pos jobId]
      cases at_n : (s.jobs jp).jgrpNode with
      | none =>
        rw [at_n] at node
        have nothing : updJgrpCountByJStatus s1 jp (s1.jobs jp).jStatus (maskStatus newStatus) =
            s1 := by
          rw [updJgrpCountByJStatus, node]
          cases s1.numNodes <;> rfl
        rw [nothing]
        refine (aside_update le_rfl fun m mem => ?_).grown grown1
        have := grown1.holding.node m jp mem
        rw [node] at this
        exact absurd this (by simp)
      | some n =>
        rw [at_n] at node
        have mem : jp ∈ (s1.tree n).jobs := by
          rw [reserves.tree]
          exact at_ n at_n
        have by_ := grown1.shape.updByJStatus node (grown1.holding.alloc n jp mem).2
          (s1.jobs jp).jStatus (maskStatus newStatus)
        exact grown1.restatus mem inTable by_ (fun j => (index_writeStatus _ j).1)
          fun j => (index_writeStatus _ j).2

end Jhlava.Core
