import Jhlava.DepMatch

/-! When `matchJobs` accepts a one-to-one dependency between two arrays. It compares the
first ranges of their index lists. -/
namespace Jhlava.Dep
open List

def indexSet (idxList : List IdxRange) : Set Nat := {i | ∃ r ∈ idxList, i ∈ r.indices}

def hasIndex (idxList : List IdxRange) (i : Nat) : Bool :=
  idxList.any fun r => r.start ≤ i && i ≤ r.stop && (i - r.start) % r.step == 0

/-- Two ranges are written alike. -/
def IdxRange.Alike (r r' : IdxRange) : Prop :=
  r.start = r'.start ∧ r.stop = r'.stop ∧ r.step = r'.step

instance (r r' : IdxRange) : Decidable (r.Alike r') := inferInstanceAs (Decidable (_ ∧ _))

def firstFound (env : DepEnv) (jobp : List Char) (lsfUserName : String) : Option JobRec :=
  match jobKey (keyText jobp) with
  | .byId jobId => env.getJobData jobId
  | .byName jobName =>
    env.groupRoot.bind fun nodes =>
      (scanTree (env.jobDepLastSub && !wildCardJobName jobName) lsfUserName nodes).head?
  | .nothing => none

theorem IdxRange.mem_indices {r : IdxRange} {i : Nat} :
    i ∈ r.indices ↔ (r.start ≤ i ∧ i ≤ r.stop) ∧ r.step ∣ i - r.start := by
  simp only [indices, mem_map, mem_range]
  constructor
  · rintro ⟨k, lt, rfl⟩
    have le : k * r.step ≤ r.stop - r.start :=
      (Nat.le_div_iff_mul_le r.step_pos).mp (Nat.le_of_lt_succ lt)
    have ordered := r.ordered
    refine ⟨⟨by omega, by omega⟩, ?_⟩
    rw [Nat.add_sub_cancel_left]
    exact Nat.dvd_mul_left _ _
  · rintro ⟨⟨low, high⟩, k, eq⟩
    refine ⟨k, Nat.lt_succ_of_le ((Nat.le_div_iff_mul_le r.step_pos).mpr ?_), ?_⟩
    · rw [Nat.mul_comm]
      omega
    · rw [Nat.mul_comm]
      omega

theorem mem_indexSet {idxList : List IdxRange} {i : Nat} :
    i ∈ indexSet idxList ↔ hasIndex idxList i = true := by
  simp [indexSet, hasIndex, IdxRange.mem_indices, Nat.dvd_iff_mod_eq_zero, and_assoc]

section Told

variable {r r' : IdxRange} {rest rest' : List IdxRange}

/-- Behind first ranges that are written alike, only the further ranges can tell two lists
apart. -/
theorem indexSet_eq_iff_of_alike (alike : r.Alike r') :
    indexSet (r :: rest) = indexSet (r' :: rest') ↔
      (∀ i ∈ rest.flatMap IdxRange.indices, hasIndex (r' :: rest') i = true) ∧
        ∀ i ∈ rest'.flatMap IdxRange.indices, hasIndex (r :: rest) i = true := by
  have first : ∀ i, i ∈ r.indices ↔ i ∈ r'.indices := by
    intro i
    rw [IdxRange.mem_indices, IdxRange.mem_indices, alike.1, alike.2.1, alike.2.2]
  constructor
  · intro same
    refine ⟨fun i mem => ?_, fun i mem => ?_⟩
    · obtain ⟨s, further, here⟩ := mem_flatMap.mp mem
      exact mem_indexSet.mp (same ▸ ⟨s, mem_cons_of_mem _ further, here⟩)
    · obtain ⟨s, further, here⟩ := mem_flatMap.mp mem
      exact mem_indexSet.mp (same ▸ ⟨s, mem_cons_of_mem _ further, here⟩)
  · rintro ⟨added, added'⟩
    ext i
    constructor
    · rintro ⟨s, mem, here⟩
      rcases mem_cons.mp mem with rfl | further
      · exact ⟨r', mem_cons_self, (first i).mp here⟩
      · exact mem_indexSet.mpr (added i (mem_flatMap.mpr ⟨s, further, here⟩))
    · rintro ⟨s, mem, here⟩
      rcases mem_cons.mp mem with rfl | further
      · exact ⟨r, mem_cons_self, (first i).mpr here⟩
      · exact mem_indexSet.mpr (added' i (mem_flatMap.mpr ⟨s, further, here⟩))

theorem indexSet_ne_iff {idxList idxList' : List IdxRange} :
    indexSet idxList ≠ indexSet idxList' ↔ ∃ i, hasIndex idxList i ≠ hasIndex idxList' i := by
  rw [Ne, Set.ext_iff, not_forall]
  refine exists_congr fun i => ?_
  rw [mem_indexSet, mem_indexSet, ← Bool.eq_iff_iff]

end Told

namespace IdxRange

/-- The last index of the range, which ends at `stop` or before it. -/
def last (r : IdxRange) : Nat := r.start + (r.stop - r.start) / r.step * r.step

variable {r r' : IdxRange} {i : Nat}

theorem mem_indices_last :
    i ∈ r.indices ↔ (r.start ≤ i ∧ i ≤ r.last) ∧ r.step ∣ i - r.start := by
  have stop : r.start + (r.stop - r.start) / r.step * r.step ≤ r.stop := by
    have le := Nat.div_mul_le_self (r.stop - r.start) r.step
    have ordered := r.ordered
    omega
  rw [mem_indices, last]
  constructor
  · rintro ⟨⟨low, high⟩, k, eq⟩
    have le : k ≤ (r.stop - r.start) / r.step :=
      (Nat.le_div_iff_mul_le r.step_pos).mpr (by rw [Nat.mul_comm]; omega)
    have within := Nat.mul_le_mul_right r.step le
    rw [Nat.mul_comm] at eq
    exact ⟨⟨low, by omega⟩, k, by rw [eq, Nat.mul_comm]⟩
  · rintro ⟨⟨low, high⟩, dvd⟩
    exact ⟨⟨low, high.trans stop⟩, dvd⟩

theorem start_mem (r : IdxRange) : r.start ∈ r.indices :=
  mem_indices_last.mpr ⟨⟨Nat.le_refl _, Nat.le_add_right _ _⟩, by simp⟩

theorem last_mem (r : IdxRange) : r.last ∈ r.indices :=
  mem_indices_last.mpr ⟨⟨Nat.le_add_right _ _, Nat.le_refl _⟩, ⟨_, by
    rw [last, Nat.add_sub_cancel_left, Nat.mul_comm]⟩⟩

theorem step_dvd (sub : ∀ i ∈ r.indices, i ∈ r'.indices) (start : r.start = r'.start)
    (more : r.start < r.last) : r'.step ∣ r.step := by
  have second : r.start + r.step ∈ r.indices := by
    have le := Nat.le_of_dvd (Nat.sub_pos_of_lt more) (mem_indices_last.mp r.last_mem).2
    exact mem_indices_last.mpr ⟨⟨Nat.le_add_right _ _, by omega⟩, by simp⟩
  have dvd := (mem_indices_last.mp (sub _ second)).2
  rwa [← start, Nat.add_sub_cancel_left] at dvd

/-- The step of a range with a single index does not matter. -/
theorem indices_iff : (∀ i, i ∈ r.indices ↔ i ∈ r'.indices) ↔
    r.start = r'.start ∧ r.last = r'.last ∧ (r.start < r.last → r.step = r'.step) := by
  constructor
  · intro same
    have start : r.start = r'.start := by
      have le := (mem_indices_last.mp ((same _).mp r.start_mem)).1.1
      have ge := (mem_indices_last.mp ((same _).mpr r'.start_mem)).1.1
      omega
    have last : r.last = r'.last := by
      have le := (mem_indices_last.mp ((same _).mp r.last_mem)).1.2
      have ge := (mem_indices_last.mp ((same _).mpr r'.last_mem)).1.2
      omega
    refine ⟨start, last, fun more => ?_⟩
    have dvd := step_dvd (fun i mem => (same i).mp mem) start more
    have dvd' := step_dvd (fun i mem => (same i).mpr mem) start.symm (by omega)
    exact Nat.dvd_antisymm dvd' dvd
  · rintro ⟨start, last, step⟩ i
    rw [mem_indices_last, mem_indices_last, ← start, ← last]
    refine and_congr_right fun within => ?_
    by_cases more : r.start < r.last
    · rw [step more]
    · simp [show i - r.start = 0 by omega]

end IdxRange

theorem indexSet_singleton_ne_iff {r r' : IdxRange} : indexSet [r] ≠ indexSet [r'] ↔
    r.start ≠ r'.start ∨ r.last ≠ r'.last ∨ (r.start < r.last ∧ r.step ≠ r'.step) := by
  have one : indexSet [r] = indexSet [r'] ↔ ∀ i, i ∈ r.indices ↔ i ∈ r'.indices := by
    simp [indexSet, Set.ext_iff]
  rw [Ne, one, IdxRange.indices_iff]
  tauto

section Accepted

variable {env : DepEnv} {jobp : List Char} {user : String} {refs : MatchRefs} {array : JobRec}
  {r r' : IdxRange} {rest rest' : List IdxRange}

theorem checkIdx_eq_nil (indices : env.parseJobArrayIndex array.jobName = some (r :: rest))
    (context : env.idxListContext = r' :: rest') (flag : refs.flag = some true)
    (others : List JobRec) : (checkIdx env (array :: others) refs).1 ≠ [] ↔ r.Alike r' := by
  by_cases same : r.start = r'.start ∧ r.stop = r'.stop ∧ r.step = r'.step
  · have kept : (checkIdx env (array :: others) refs).1 = array :: others := by
      simp [checkIdx, flag, indices, context, same]
    exact iff_of_true (by rw [kept]; exact cons_ne_nil _ _) same
  · have refused : (checkIdx env (array :: others) refs).1 = [] := by
      simp [checkIdx, flag, indices, context, same]
    exact iff_of_false (not_not.mpr refused) same

theorem matchRet_ne_none {idxList : List IdxRange} {found : List JobRec} :
    (matchRet idxList found refs).1 ≠ none ↔ found ≠ [] := by
  rw [matchRet]
  split
  · rename_i none_
    simp [none_]
  · rename_i some_
    simp [some_]

variable (oneToOne : (cutOneToOne jobp).isSome) (flag : refs.flag.isSome)
  (index : (env.parseJobArrayIndex (indexText jobp)).isSome)
  (first : firstFound env jobp user = some array) (isArray : array.nodeType = .array)
  (indices : env.parseJobArrayIndex array.jobName = some (r :: rest))
  (context : env.idxListContext = r' :: rest')
include oneToOne flag index first isArray indices context

theorem matchJobs_oneToOne : (matchJobs env jobp user refs).1 ≠ none ↔ r.Alike r' := by
  obtain ⟨f, flag⟩ := Option.isSome_iff_exists.mp flag
  obtain ⟨idxList, index⟩ := Option.isSome_iff_exists.mp index
  have set : oneToOneFlag jobp refs.flag = some true := by simp [oneToOneFlag, flag, oneToOne]
  simp only [matchJobs, index, set]
  rw [firstFound] at first
  cases key : jobKey (keyText jobp) with
  | nothing =>
    rw [key] at first
    cases first
  | byId jobId =>
    rw [key] at first
    simp only [matchById, first, isArray, if_true, matchRet_ne_none]
    exact checkIdx_eq_nil indices context rfl []
  | byName jobName =>
    rw [key] at first
    obtain ⟨nodes, root, head⟩ := Option.bind_eq_some_iff.mp first
    obtain ⟨others, found⟩ := List.head?_eq_some_iff.mp head
    simp only [matchByName, root, found, matchRet_ne_none]
    exact checkIdx_eq_nil indices context rfl others

/-- A one-to-one dependency is accepted exactly for arrays with the same indices, if behind
first ranges written alike neither array has an index that the other lacks, and if first ranges
written differently leave some index to one array alone: two single ranges, if they start or end
at different indices or have different steps. -/
theorem oneToOne_accepted_iff :
    ((matchJobs env jobp user refs).1 ≠ none ↔
        indexSet (r :: rest) = indexSet (r' :: rest')) ↔
      if r.Alike r' then
        (∀ i ∈ rest.flatMap IdxRange.indices, hasIndex (r' :: rest') i = true) ∧
          ∀ i ∈ rest'.flatMap IdxRange.indices, hasIndex (r :: rest) i = true
      else if rest = [] ∧ rest' = [] then
        r.start ≠ r'.start ∨ r.last ≠ r'.last ∨ (r.start < r.last ∧ r.step ≠ r'.step)
      else ∃ i, hasIndex (r :: rest) i ≠ hasIndex (r' :: rest') i := by
  rw [matchJobs_oneToOne oneToOne flag index first isArray indices context]
  by_cases alike : r.Alike r'
  · rw [if_pos alike, iff_true_left alike, indexSet_eq_iff_of_alike alike]
  · rw [if_neg alike, iff_false_left alike]
    split_ifs with single
    · rw [single.1, single.2]
      exact indexSet_singleton_ne_iff
    · exact indexSet_ne_iff

end Accepted

/-- The range from `start` to `stop`. -/
def unitRange (start stop : Nat) (pos : 0 < start) (ordered : start ≤ stop) : IdxRange :=
  ⟨start, stop, 1, pos, Nat.one_pos, ordered⟩

def oneToThree : IdxRange := unitRange 1 3 Nat.one_pos (Nat.le_add_left 1 2)
def oneToTwo : IdxRange := unitRange 1 2 Nat.one_pos (Nat.le_succ 1)
def three : IdxRange := unitRange 3 3 (Nat.succ_pos 2) (Nat.le_refl 3)
def seven : IdxRange := unitRange 7 7 (Nat.succ_pos 6) (Nat.le_refl 7)

def twoArrays (dep submitted : List IdxRange) : DepEnv :=
  { plainEnv false [] with
    getJobData := fun jobId =>
      if jobId = 7 then some ⟨7, "amy", "a[]".toList, 5, .array, .array⟩ else none
    parseJobArrayIndex := fun text => if text.contains '[' then some dep else some []
    idxListContext := submitted }

theorem oneToOne_accepted_iff_shorter :
    (matchJobs (twoArrays [oneToThree] [oneToTwo]) "7[*]".toList "amy" freshRefs).1 ≠ none ↔
      indexSet [oneToThree] = indexSet [oneToTwo] := by
  refine (@oneToOne_accepted_iff (twoArrays [oneToThree] [oneToTwo]) "7[*]".toList "amy"
    freshRefs _ oneToThree oneToTwo [] [] rfl rfl rfl rfl rfl rfl rfl).mpr ?_
  rw [if_neg (by decide), if_pos ⟨rfl, rfl⟩]
  decide

/-- A dependency of `b[1-3]` on `a[1-3,7]` is accepted, one of `b[1-2,3]` on `a[1-3]` is
not. -/
theorem oneToOne_misjudged :
    (matchJobs (twoArrays [oneToThree, seven] [oneToThree]) "7[*]".toList "amy" freshRefs).1 ≠
      none ∧
    indexSet [oneToThree, seven] ≠ indexSet [oneToThree] ∧
    (matchJobs (twoArrays [oneToThree] [oneToTwo, three]) "7[*]".toList "amy" freshRefs).1 = none ∧
    indexSet [oneToThree] = indexSet [oneToTwo, three] := by
  refine ⟨by decide, ?_, by decide, ?_⟩
  · intro same
    have more : 7 ∈ indexSet [oneToThree, seven] :=
      ⟨seven, mem_cons_of_mem _ mem_cons_self, by decide⟩
    rw [same] at more
    obtain ⟨r, mem, inside⟩ := more
    rw [mem_singleton.mp mem] at inside
    exact absurd inside (by decide)
  · ext i
    have pair : i ∈ indexSet [oneToTwo, three] ↔ i ∈ oneToTwo.indices ∨ i ∈ three.indices := by
      simp [indexSet]
    have one : i ∈ indexSet [oneToThree] ↔ i ∈ oneToThree.indices := by simp [indexSet]
    have indices : oneToThree.indices = oneToTwo.indices ++ three.indices := by decide
    rw [one, pair, indices, mem_append]

end Jhlava.Dep
