import Jhlava.DepCached

/-! One-to-one terms: each element of an array waits for the element of the same index of
another array. -/
namespace Jhlava.DepEval
open Dep List
open JobArray (lsbArrayIdx)
open Jhlava.Core (jobStatRun has isPend isFinish)

def elementId (jobRec : JobRec) (depJob : Depending) : Int :=
  lsbJobId jobRec.jobId (lsbArrayIdx depJob.jobId).toNat

/-- The term of a one-to-one dependency: an array, and records of its elements. -/
structure OneToOne (jobRec : JobRec) (jobIdx : Option JobIdx) : Prop where
  array : jobRec.nodeType = .array
  jobId : 0 ≤ jobRec.jobId ∧ jobRec.jobId < 2 ^ 32
  elements : ∀ idx ∈ jobIdx, ∀ jp ∈ idx.depJobList,
    ∃ k : Nat, k < 2 ^ 16 ∧ jp.jobId = lsbJobId jobRec.jobId k

/-- Two states that have the same to say of the job with an id. -/
structure AgreesOn (jobId : Int) (st st' : EvalState) : Prop where
  table : st'.getJobData jobId = st.getJobData jobId
  record : ∀ jp, jp.jobId = jobId → st'.job jp = st.job jp

theorem mask_eq (x : Nat) : x &&& 0xFFFF = x % 2 ^ 16 := Nat.and_two_pow_sub_one_eq_mod x 16

theorem lsbArrayIdx_lsbJobId {jobId : Int} (low : 0 ≤ jobId ∧ jobId < 2 ^ 32) {k : Nat}
    (small : k < 2 ^ 16) : lsbArrayIdx (lsbJobId jobId k) = k := by
  obtain ⟨n, rfl⟩ := Int.eq_ofNat_of_zero_le low.1
  have value : lsbJobId n k = ((k * 2 ^ 32 + n : Nat) : Int) := by simp [lsbJobId]
  rw [value, lsbArrayIdx, mask_eq]
  omega

theorem lsbArrayIdx_range (jobId : Int) : 0 ≤ lsbArrayIdx jobId ∧ lsbArrayIdx jobId < 2 ^ 16 := by
  rw [lsbArrayIdx]
  split
  · decide
  · rw [mask_eq]
    omega

theorem searchElement_mem (arrayIdx : Int) (jpbw : JobRec) (rest : List JobRec) :
    searchElement arrayIdx jpbw rest ∈ jpbw :: rest := by
  induction rest generalizing jpbw with
  | nil => exact mem_cons_self
  | cons next rest ih =>
    rw [searchElement]
    split
    · exact mem_cons_self
    · exact mem_cons_of_mem _ (ih next)

theorem searchElement_found {arrayIdx : Int} {jpbw : JobRec} {rest : List JobRec}
    (found : ∃ jp ∈ jpbw :: rest, lsbArrayIdx jp.jobId = arrayIdx) :
    lsbArrayIdx (searchElement arrayIdx jpbw rest).jobId = arrayIdx := by
  induction rest generalizing jpbw with
  | nil =>
    obtain ⟨jp, mem, idx⟩ := found
    rwa [mem_singleton.mp mem] at idx
  | cons next rest ih =>
    rw [searchElement]
    split
    · rename_i here
      exact here.symm
    · rename_i other
      refine ih ?_
      obtain ⟨jp, mem, idx⟩ := found
      rcases mem_cons.mp mem with rfl | later
      · exact absurd idx.symm other
      · exact ⟨jp, later, idx⟩

theorem searchElement_jobId {jobRec : JobRec} {depJob : Depending} {first : JobRec}
    {rest : List JobRec} (low : 0 ≤ jobRec.jobId ∧ jobRec.jobId < 2 ^ 32)
    (elements : ∀ jp ∈ first :: rest,
      ∃ k : Nat, k < 2 ^ 16 ∧ jp.jobId = lsbJobId jobRec.jobId k)
    (listed : ∃ jp ∈ first :: rest, jp.jobId = elementId jobRec depJob) :
    (searchElement (lsbArrayIdx depJob.jobId) first rest).jobId = elementId jobRec depJob := by
  have range := lsbArrayIdx_range depJob.jobId
  have found : ∃ jp ∈ first :: rest, lsbArrayIdx jp.jobId = lsbArrayIdx depJob.jobId := by
    obtain ⟨jp, mem, id⟩ := listed
    refine ⟨jp, mem, ?_⟩
    rw [id, elementId, lsbArrayIdx_lsbJobId low (by omega)]
    omega
  obtain ⟨k, small, id⟩ := elements _ (searchElement_mem (lsbArrayIdx depJob.jobId) first rest)
  have idx := searchElement_found found
  rw [id, lsbArrayIdx_lsbJobId low small] at idx
  rw [id, elementId, ← idx, Int.toNat_natCast]

section OneToOne

variable {type opType : DptType} {exitCode : Int} {jobRec : JobRec} {jobIdx : Option JobIdx}
  {depJob : Depending}

def jobValue (type opType : DptType) (exitCode : Int) (depJob : Depending) (fields : JobFields) :
    DpValue :=
  if evalJobDep type opType exitCode fields (some depJob) then .dpTrue
  else if isOver type fields.jStatus then .dpInvalid
  else .dpFalse

def oneToOneTerm (type opType : DptType) (exitCode : Int) (jobRec : JobRec)
    (jobIdx : Option JobIdx) (value : DpValue) : EvalNode :=
  .term value (.job type opType exitCode true (some jobRec) jobIdx)

section Result

variable {st : EvalState} (array : jobRec.nodeType = .array) (value : DpValue)
include array

theorem lookJobs_array :
    lookJobs st (some depJob) true jobRec jobIdx = lookOneToOne st (some depJob) jobRec jobIdx := by
  simp [lookJobs, array]

theorem result_of_look {jp : JobRec}
    (look : lookOneToOne st (some depJob) jobRec jobIdx = .jobs [jp]) :
    result st (some depJob) (oneToOneTerm type opType exitCode jobRec jobIdx value) =
      some (jobValue type opType exitCode depJob (st.job jp)) := by
  have noSkip : skipped true jobIdx jp = false := by simp [skipped]
  simp [oneToOneTerm, result_term, evalTerm, lookJobs_array array, look, evalJobs, noSkip, jobValue]

theorem result_of_table {jp : JobRec} (found : st.getJobData (elementId jobRec depJob) = some jp) :
    result st (some depJob) (oneToOneTerm type opType exitCode jobRec jobIdx value) =
      some (jobValue type opType exitCode depJob (st.job jp)) := by
  refine result_of_look array value ?_
  rw [elementId] at found
  simp [lookOneToOne, found, -Int.ofNat_toNat]

variable (gone : st.getJobData (elementId jobRec depJob) = none)
include gone

theorem result_of_no_jobIdx :
    result st (some depJob) (oneToOneTerm type opType exitCode jobRec none value) =
      some .dpInvalid := by
  rw [elementId] at gone
  simp [oneToOneTerm, result_term, evalTerm, lookJobs_array array, lookOneToOne, gone,
    -Int.ofNat_toNat]

theorem result_of_no_elements (idxList : List IdxRange) :
    result st (some depJob)
      (oneToOneTerm type opType exitCode jobRec (some ⟨idxList, []⟩) value) = none := by
  rw [elementId] at gone
  simp [oneToOneTerm, result_term, evalTerm, lookJobs_array array, lookOneToOne, gone,
    -Int.ofNat_toNat]

theorem result_of_search (idxList : List IdxRange) (first : JobRec) (rest : List JobRec) :
    result st (some depJob)
      (oneToOneTerm type opType exitCode jobRec (some ⟨idxList, first :: rest⟩) value) =
      some (jobValue type opType exitCode depJob
        (st.job (searchElement (lsbArrayIdx depJob.jobId) first rest))) := by
  refine result_of_look array value ?_
  rw [elementId] at gone
  simp [lookOneToOne, gone, -Int.ofNat_toNat]

end Result

def IsJobType (type : DptType) : Prop :=
  type = .done ∨ type = .exit ∨ type = .started ∨ type = .ended ∨ type = .postDone ∨ type = .postErr

def runningJob : JobFields := ⟨jobStatRun, false, 0, 0, 0⟩

def voidJob : JobFields := ⟨Core.Flag.void.bit, false, 0, 0, 0⟩

theorem jobValue_running {type : DptType} (isJob : IsJobType type) (opType : DptType)
    (exitCode : Int) (depJob : Depending) :
    jobValue type opType exitCode depJob runningJob = .dpFalse ∧
    jobValue type opType exitCode depJob voidJob = .dpInvalid := by
  have running : has runningJob.jStatus Core.jobStatDone = false ∧
    isPend runningJob.jStatus = false ∧ isFinish runningJob.jStatus = false := by decide
  have gone : has voidJob.jStatus Core.jobStatDone = false ∧ isPend voidJob.jStatus = false ∧
      isFinish voidJob.jStatus = false := by decide
  have overR : ∀ type, isOver type runningJob.jStatus = false := by
    intro type
    rfl
  have overV : ∀ type, isOver type voidJob.jStatus = true := by
    intro type
    rfl
  rw [jobValue, jobValue, overR, overV]
  rcases isJob with rfl | rfl | rfl | rfl | rfl | rfl <;>
    simp [evalJobDep, running, gone, show runningJob.startTime = 0 from rfl,
      show voidJob.startTime = 0 from rfl]

def EvalState.setJob (st : EvalState) (jp : JobRec) (fields : JobFields) : EvalState :=
  { st with job := Function.update st.job jp fields }

theorem EvalState.job_setJob (st : EvalState) (jp : JobRec) (fields : JobFields) :
    (st.setJob jp fields).job jp = fields := Function.update_self ..

theorem agreesOn_setJob {st : EvalState} {jp : JobRec} {jobId : Int} (other : jp.jobId ≠ jobId)
    (fields : JobFields) : AgreesOn jobId st (st.setJob jp fields) := by
  refine ⟨rfl, fun jp' same => ?_⟩
  have ne : jp' ≠ jp := by
    rintro rfl
    exact other same
  exact Function.update_of_ne ne _ _

/-- A one-to-one term depends on nothing but the element it is for, exactly if that element
is in core or its record is in the list, or the term has no list to search. -/
theorem oneToOne_iff (rel : OneToOne jobRec jobIdx) (isJob : IsJobType type) (st : EvalState)
    (value : DpValue) :
    (∀ st', AgreesOn (elementId jobRec depJob) st st' →
      result st' (some depJob) (oneToOneTerm type opType exitCode jobRec jobIdx value) =
        result st (some depJob) (oneToOneTerm type opType exitCode jobRec jobIdx value)) ↔
    st.getJobData (elementId jobRec depJob) ≠ none ∨
      ∀ idx ∈ jobIdx, idx.depJobList = [] ∨
        ∃ jp ∈ idx.depJobList, jp.jobId = elementId jobRec depJob := by
  obtain ⟨array, low, elements⟩ := rel
  constructor
  · intro only
    by_contra missing
    obtain ⟨gone, unlisted⟩ := not_or.mp missing
    have none_ := not_not.mp gone
    obtain ⟨⟨idxList, list⟩, isIdx, other⟩ : ∃ idx, jobIdx = some idx ∧
        ¬(idx.depJobList = [] ∨ ∃ jp ∈ idx.depJobList, jp.jobId = elementId jobRec depJob) := by
      simpa [not_forall] using unlisted
    subst isIdx
    obtain ⟨nonempty, absent⟩ := not_or.mp other
    obtain ⟨first, rest, rfl⟩ := exists_cons_of_ne_nil nonempty
    -- the element the search stops at runs in one state and is gone in another
    have strange : (searchElement (lsbArrayIdx depJob.jobId) first rest).jobId ≠
        elementId jobRec depJob := fun same => absent ⟨_, searchElement_mem _ _ _, same⟩
    have change : ∀ fields, some (jobValue type opType exitCode depJob fields) =
        result st (some depJob)
          (oneToOneTerm type opType exitCode jobRec (some ⟨idxList, first :: rest⟩) value) := by
      intro fields
      have agrees := @agreesOn_setJob st _ _ strange fields
      rw [← only _ agrees, result_of_search array value (agrees.table.trans none_),
        EvalState.job_setJob]
    have same := (change runningJob).trans (change voidJob).symm
    rw [(jobValue_running isJob _ _ _).1, (jobValue_running isJob _ _ _).2] at same
    cases same
  · intro known st' agrees
    cases inTable : st.getJobData (elementId jobRec depJob) with
    | some jp =>
      rw [result_of_table array value inTable,
        result_of_table array value (agrees.table.trans inTable),
        agrees.record jp (st.getJobData_jobId inTable)]
    | none =>
      have gone := agrees.table.trans inTable
      rcases known with present | listed
      · exact absurd inTable present
      · cases jobIdx with
        | none => rw [result_of_no_jobIdx array value inTable, result_of_no_jobIdx array value gone]
        | some idx =>
          obtain ⟨idxList, list⟩ := idx
          cases list with
          | nil =>
            rw [result_of_no_elements array value inTable,
              result_of_no_elements array value gone]
          | cons first rest =>
            rw [result_of_search array value inTable, result_of_search array value gone]
            rcases listed _ rfl with empty | there
            · cases empty
            · rw [agrees.record _ (searchElement_jobId low (elements _ rfl) there)]

end OneToOne

/-- `done(arr[*])`: of the elements only the first was in core when it was submitted. -/
def waitsForArr : EvalNode :=
  oneToOneTerm .done .and 0 arrayBase (some ⟨[], [firstElement]⟩) .dpFalse

def depElement (idx : Nat) : Depending := ⟨lsbJobId 9 idx, 0⟩

theorem oneToOne_arr : OneToOne arrayBase (some ⟨[], [firstElement]⟩) := by
  refine ⟨rfl, by decide, fun idx isIdx jp mem => ?_⟩
  cases isIdx
  rw [mem_singleton.mp mem]
  exact ⟨1, by decide, rfl⟩

theorem oneToOne_iff_first :
    OneToOne arrayBase (some ⟨[], [firstElement]⟩) ∧
      ∀ st', AgreesOn (elementId arrayBase (depElement 1)) oneLeft st' →
        result st' (some (depElement 1)) waitsForArr =
          result oneLeft (some (depElement 1)) waitsForArr := by
  have present : oneLeft.getJobData (elementId arrayBase (depElement 1)) ≠ none := by
    decide +kernel
  refine ⟨oneToOne_arr, ?_⟩
  exact (oneToOne_iff oneToOne_arr (Or.inl rfl) oneLeft .dpFalse).mpr (Or.inl present)

/-- The second element is gone, and the first one decides for it. -/
theorem second_follows_first :
    AgreesOn (elementId arrayBase (depElement 2)) oneLeft (oneLeft.setJob firstElement runningJob) ∧
    oneLeft.getJobData (elementId arrayBase (depElement 2)) = none ∧
    result oneLeft (some (depElement 2)) waitsForArr = some .dpTrue ∧
    result (oneLeft.setJob firstElement runningJob) (some (depElement 2)) waitsForArr =
      some .dpFalse := by
  refine ⟨agreesOn_setJob ?_ _, ?_, ?_, ?_⟩
  · decide +kernel
  · decide +kernel
  · decide +kernel
  · decide +kernel

end Jhlava.DepEval
