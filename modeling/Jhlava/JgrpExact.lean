import Jhlava.JgrpSteps

/-! The counts of the job group tree over whole runs. -/
namespace Jhlava.Core
open TransitionRun List

/-- The entries of `counts` that `updJgrpCountByJStatus` gets from the table. -/
def indexesOf (oldStatus newStatus : Status) : List (Fin 9) :=
  ([oldStatus, newStatus].filter (· ≠ jobStatNull)).map getIndexOfJStatus

/-- The entries of `counts` a change gets from the table. -/
def indexesUsed (s : Mbd) : TreeStep → List (Fin 9)
  | .putElement _ _ hold | .handleNewJobArray _ _ hold =>
    indexesOf jobStatNull (elementStatus hold)
  | .treeInsertChild _ n =>
    if (s.tree n).nodeType = .job then
      (s.tree n).jobs.flatMap fun p => indexesOf jobStatNull (s.jobs p).jStatus
    else []
  | .treeClip n =>
    if (s.tree n).nodeType = .job then
      (s.tree n).jobs.flatMap fun p => indexesOf (s.jobs p).jStatus jobStatNull
    else []
  | .offArray jp =>
    match (s.jobs jp).jgrpNode with
    | none => []
    | some n =>
      if (s.tree n).nodeType = .array then indexesOf (s.jobs jp).jStatus jobStatNull else []
  | .jStatusChange _ jp newStatus eventTime =>
    if sameStatus (s.jobs jp).jStatus newStatus ∨ (s.jobs jp).jobId < 0 ∨
        (s.jobs jp).jgrpNode = none then []
    else indexesOf (endReserves (maskStatus newStatus) eventTime (s.jobs jp).jStatus)
      (maskStatus newStatus)
  | _ => []

def CountsExact (s : Mbd) : Prop :=
  ∀ g < s.numNodes, (s.tree g).nodeType ≠ .job →
    (s.tree g).counts jgrpCountNjobs = (jobsBelow s g).length ∧
    (∀ i : Fin 9, 0 < i.val → i.val < numJgrpCounters → (s.tree g).counts i =
      ((jobsBelow s g).countP fun p => getIndexOfJStatus (s.jobs p).jStatus = i : Nat)) ∧
    ∀ i, 0 ≤ (s.tree g).counts i

variable {s : Mbd} {path : Nat → List Nat}

theorem Grown.countsExact (grown : Grown s path) : CountsExact s := by
  intro g known notJob
  have counts : ∀ i, (s.tree g).counts i =
      ((jobsBelow s g).countP fun p => inClass i (s.jobs p).jStatus : Nat) := by
    intro i
    rw [grown.counted g known notJob i]
    exact (countP_jobsBelow s g i fun n hn => grown.shape.nodesUp_eq hn).symm
  refine ⟨?_, fun i pos _ => ?_, fun i => ?_⟩
  · rw [counts 0]
    exact congrArg _ (countP_eq_length.mpr fun p _ => rfl)
  · rw [counts i]
    have ne : i ≠ 0 := fun eq => absurd (congrArg Fin.val eq) pos.ne'
    congr 1
    refine countP_congr fun p _ => ?_
    simp [inClass, ne]
  · rw [counts i]
    exact Int.natCast_nonneg _

theorem mem_indexesOf {old new : Status} {i : Fin 9} (mem : i ∈ indexesOf old new) :
    (old ≠ jobStatNull ∧ i = getIndexOfJStatus old) ∨
      (new ≠ jobStatNull ∧ i = getIndexOfJStatus new) := by
  obtain ⟨st, hst, rfl⟩ := mem_map.mp mem
  rw [mem_filter, decide_eq_true_eq] at hst
  obtain ⟨here, nonnull⟩ := hst
  rcases mem_cons.mp here with rfl | later
  · exact Or.inl ⟨nonnull, rfl⟩
  · obtain rfl := mem_singleton.mp later
    exact Or.inr ⟨nonnull, rfl⟩

/-- One change keeps the tree exact and stays inside the table. -/
theorem treeStep_grown (grown : Grown s path) {step : TreeStep} (proper : Proper s step)
    (countable : Countable s step) :
    (∃ path', Grown (treeStep s step) path') ∧
    ∀ i ∈ indexesUsed s step, i.val < numJgrpCounters := by
  have onlyNew : ∀ {st : Status}, (getIndexOfJStatus st).val < numJgrpCounters →
      ∀ i ∈ indexesOf jobStatNull st, i.val < numJgrpCounters := by
    intro st inTable i mem
    rcases mem_indexesOf mem with ⟨nonnull, -⟩ | ⟨-, rfl⟩
    · exact absurd rfl nonnull
    · exact inTable
  have onlyOld : ∀ {st : Status}, (getIndexOfJStatus st).val < numJgrpCounters →
      ∀ i ∈ indexesOf st jobStatNull, i.val < numJgrpCounters := by
    intro st inTable i mem
    rcases mem_indexesOf mem with ⟨-, rfl⟩ | ⟨nonnull, -⟩
    · exact inTable
    · exact absurd rfl nonnull
  cases step with
  | newGroup => exact ⟨⟨path, grown.newGroup⟩, nofun⟩
  | newArray => exact ⟨⟨path, grown.newArray⟩, nofun⟩
  | newJob jobId => exact ⟨⟨path, grown.newJobNode jobId⟩, nofun⟩
  | putElement n jobId hold =>
    exact ⟨⟨path, grown.putElement proper.1 proper.2 jobId hold⟩, onlyNew (index_element hold)⟩
  | handleNewJobArray n ids hold =>
    exact ⟨⟨path, grown.handleNewJobArray proper.1 proper.2.1 proper.2.2 ids hold⟩,
      onlyNew (index_element hold)⟩
  | treeInsertChild parent child =>
    refine ⟨⟨_, grown.treeInsertChild proper⟩, fun i mem => ?_⟩
    rw [indexesUsed] at mem
    split at mem
    · obtain ⟨p, hp, used⟩ := mem_flatMap.mp mem
      exact onlyNew (grown.holding.inTable child p hp) i used
    · exact absurd mem not_mem_nil
  | treeClip n =>
    refine ⟨⟨_, grown.treeClip proper⟩, fun i mem => ?_⟩
    rw [indexesUsed] at mem
    split at mem
    · obtain ⟨p, hp, used⟩ := mem_flatMap.mp mem
      exact onlyOld (grown.holding.inTable n p hp) i used
    · exact absurd mem not_mem_nil
  | offArray jp =>
    refine ⟨⟨path, grown.offArray proper⟩, fun i mem => ?_⟩
    rw [indexesUsed] at mem
    split at mem
    · exact absurd mem not_mem_nil
    · rename_i n node
      split at mem
      · exact onlyOld (grown.holding.inTable n jp (proper n node)) i mem
      · exact absurd mem not_mem_nil
  | jStatusChange g jp newStatus eventTime =>
    refine ⟨⟨path, grown.jStatusChange proper countable⟩, fun i mem => ?_⟩
    rw [indexesUsed] at mem
    split at mem
    · exact absurd mem not_mem_nil
    · rename_i used
      obtain ⟨differs, -, onNode⟩ := not_or.mp used |>.imp_right not_or.mp
      obtain ⟨n, node⟩ := Option.ne_none_iff_exists'.mp onNode
      rcases countable with same | ⟨-, inTable, -⟩
      · exact absurd same differs
      · rcases mem_indexesOf mem with ⟨-, rfl⟩ | ⟨-, rfl⟩
        · rw [index_endReserves]
          exact grown.holding.inTable n jp (proper n node)
        · exact inTable

theorem initial_grown : Grown initial fun n => [n] := by
  refine ⟨⟨fun n => .step .root, fun n hn m hm => ?_, nofun, fun _ _ => rfl⟩,
    ⟨nofun, fun _ => nodup_nil, nofun, nofun, nofun⟩, fun g hg notJob i => ?_⟩
  · exact mem_singleton.mp hm ▸ hn
  · refine (Finset.sum_eq_zero fun m _ => ?_).symm
    split <;> rfl

/-- Counts are exact in every run that makes no change of status outside the table, none
of a job without an id, and none that a replay takes back. -/
theorem jgrp_counts_exact (steps : List TreeStep) (proper : Along treeStep Proper initial steps)
    (countable : Along treeStep Countable initial steps) :
    (∀ before, before <+: steps → CountsExact (run treeStep initial before)) ∧
    Along treeStep (fun s i => ∀ j ∈ indexesUsed s i, j.val < numJgrpCounters) initial steps := by
  have both := along_and.mpr ⟨proper, countable⟩
  have keeps : ∀ s i, (∃ path, Grown s path) → Proper s i ∧ Countable s i →
      ∃ path, Grown (treeStep s i) path := by
    rintro s i ⟨path, grown⟩ ⟨proper, countable⟩
    exact (treeStep_grown grown proper countable).1
  have start : ∃ path, Grown initial path := ⟨_, initial_grown⟩
  refine ⟨(forall_prefix_iff CountsExact).mpr ⟨initial_grown.countsExact, ?_⟩, ?_⟩
  · refine along_invariant _ keeps (fun s i inv allowed => ?_) start both
    obtain ⟨path, grown⟩ := keeps s i inv allowed
    exact grown.countsExact
  · refine along_invariant _ keeps ?_ start both
    rintro s i ⟨path, grown⟩ ⟨proper, countable⟩
    exact (treeStep_grown grown proper countable).2

def replayGlobals : Globals where
  replay := true
  now := 100
  glMigToPendFlag := false
  requeueToBottom := false
  arraySchedOrder := false
  maxUserPriority := -1
  jobPriorityValue := -1
  jobPriorityTime := -1

def plainTree : List TreeStep :=
  [.newJob 1, .treeInsertChild groupRoot 1, .newGroup, .treeInsertChild groupRoot 2, .newArray,
    .handleNewJobArray 3 [5, 6] false, .treeInsertChild 2 3,
    .jStatusChange replayGlobals 0 jobStatRun 90, .jStatusChange replayGlobals 0 jobStatDone 95,
    .offArray 1, .treeClip 2]

instance (s : Mbd) (step : TreeStep) : Decidable (Countable s step) :=
  match step with
  | .jStatusChange .. => inferInstanceAs (Decidable (_ ∨ _))
  | .newGroup | .newArray | .newJob .. | .putElement .. | .handleNewJobArray ..
  | .treeInsertChild .. | .treeClip .. | .offArray .. => inferInstanceAs (Decidable True)

/-- A job points to no node, or to one it is on. -/
instance (s : Mbd) (jp : Nat) :
    Decidable (∀ n, (s.jobs jp).jgrpNode = some n → jp ∈ (s.tree n).jobs) :=
  match h : (s.jobs jp).jgrpNode with
  | none => isTrue nofun
  | some n => decidable_of_iff (jp ∈ (s.tree n).jobs) (by simp)

instance (s : Mbd) (step : TreeStep) : Decidable (Proper s step) :=
  match step with
  | .putElement .. | .handleNewJobArray .. | .treeInsertChild .. =>
    inferInstanceAs (Decidable (_ ∧ _))
  | .treeClip n => inferInstanceAs (Decidable (n < s.numNodes))
  | .offArray jp | .jStatusChange _ jp _ _ =>
    inferInstanceAs (Decidable (∀ n, (s.jobs jp).jgrpNode = some n → jp ∈ (s.tree n).jobs))
  | .newGroup | .newArray | .newJob .. => inferInstanceAs (Decidable True)

theorem jgrp_counts_exact_plainTree :
    Along treeStep Proper initial plainTree ∧ Along treeStep Countable initial plainTree ∧
    CountsExact (run treeStep initial plainTree) := by
  have proper : Along treeStep Proper initial plainTree := by decide +kernel
  have countable : Along treeStep Countable initial plainTree := by decide +kernel
  exact ⟨proper, countable,
    (jgrp_counts_exact plainTree proper countable).1 plainTree prefix_rfl⟩

def suspendedWait : List TreeStep :=
  [.newJob 1, .treeInsertChild groupRoot 1,
    .jStatusChange replayGlobals 0 (jobStatRun ||| jobStatWait) 90,
    .jStatusChange replayGlobals 0 jobStatSsusp 91, .jStatusChange replayGlobals 0 jobStatExit 92]

def waitingSuspended : List TreeStep :=
  [.newJob 1, .treeInsertChild groupRoot 1,
    .jStatusChange replayGlobals 0 (jobStatSsusp ||| jobStatWait) 90]

/-- The count of the pending jobs gets negative, and an entry outside the table is
used. -/
theorem suspendedWait_not_exact :
    Along treeStep Proper initial suspendedWait ∧
    ((run treeStep initial suspendedWait).tree groupRoot).counts 1 = -1 ∧
    ¬CountsExact (run treeStep initial suspendedWait) ∧
    Along treeStep Proper initial waitingSuspended ∧
    ¬Along treeStep (fun s i => ∀ j ∈ indexesUsed s i, j.val < numJgrpCounters) initial
      waitingSuspended := by
  have negative : ((run treeStep initial suspendedWait).tree groupRoot).counts 1 = -1 := by
    decide +kernel
  refine ⟨by decide +kernel, negative, fun exact_ => ?_, by decide +kernel, by decide +kernel⟩
  have nonneg := (exact_ groupRoot (by decide +kernel) (by decide +kernel)).2.2 1
  exact absurd nonneg (by decide)

end Jhlava.Core
