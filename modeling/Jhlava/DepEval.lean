import Jhlava.DepParse
import Jhlava.JobArray
import Jhlava.JobStatus
import Jhlava.Window

/-! `evalDepCond` of mbd.dep.c on a tree whose nodes keep their last values. A term looks
at the jobs as they are, in the state of mbatchd below; an operator only at the values of
its operands. -/
namespace Jhlava.DepEval
open Dep
open JobArray (lsbArrayIdx)
open Jhlava.Core (Status has isPend isFinish jobStatDone jobStatPdone jobStatPerr)
open Windows (Window Week)

/-! ### The state -/

/-- The fields of a job record that change while it is in core; `lastrunSucc` is
`JFLAG_LASTRUN_SUCC`. -/
structure JobFields where
  jStatus : Status
  lastrunSucc : Bool
  startTime : Int
  endTime : Int
  exitStatus : Int

/-- The counters of an array that terms read. -/
inductive JgrpCount where
  | njobs | pend | npsusp | nrun | nexit | ndone
  deriving DecidableEq, Repr

/-- `struct jgArrayBase`; `void` is the status `JGRP_VOID`. -/
structure JgArrayBase where
  void : Bool
  counts : JgrpCount → Int

/-- What the evaluation reads of mbatchd. `nextJobs` are the records that the `nextJob`
pointers lead to from the base of an array, `day` and `hour` what `getDayHour` makes of
`now`. -/
structure EvalState where
  job : JobRec → JobFields
  nextJobs : JobRec → List JobRec
  getJobData : Int → Option JobRec
  getJobData_jobId : ∀ {jobId : Int} {jp : JobRec}, getJobData jobId = some jp → jp.jobId = jobId
  jgArrayBase : Int → JgArrayBase
  now : Int
  day : Nat
  hour : Rat

/-- The job that has the condition. -/
structure Depending where
  jobId : Int
  endTime : Int

/-! ### Terms -/

/-- `IS_POST_DONE`. -/
def isPostDone (s : Status) : Bool := s &&& jobStatPdone == jobStatPdone

/-- `IS_POST_ERR`. -/
def isPostErr (s : Status) : Bool := s &&& jobStatPerr == jobStatPerr

/-- `IS_POST_FINISH`. -/
def isPostFinish (s : Status) : Bool := isPostDone s || isPostErr s

def opExpr (opType : DptType) (operand1 operand2 : Int) : Bool :=
  match opType with
  | .lt => operand1 < operand2
  | .le => operand1 ≤ operand2
  | .gt => operand1 > operand2
  | .ge => operand1 ≥ operand2
  | .eq => operand1 == operand2
  | .ne => operand1 != operand2
  | .always => true
  | _ => false

def getCounterOfDep (type : DptType) (counts : JgrpCount → Int) : Int :=
  match type with
  | .numpend => counts .pend
  | .numrun => counts .nrun
  | .numhold => counts .npsusp
  | .numexit => counts .nexit
  | .numdone => counts .ndone
  | .numstart => counts .njobs - counts .pend - counts .npsusp
  | .numended => counts .nexit + counts .ndone
  | _ => 0

/-- `depJob == NULL || depJob->endTime < time`. -/
def since (depJob : Option Depending) (time : Int) : Bool :=
  depJob.all fun depJob => depJob.endTime < time

def evalJobDep (type opType : DptType) (exitCode : Int) (jpbw : JobFields)
    (depJob : Option Depending) : Bool :=
  match type with
  | .done =>
    since depJob jpbw.endTime &&
      (has jpbw.jStatus jobStatDone || (isPend jpbw.jStatus && jpbw.lastrunSucc))
  | .postDone =>
    since depJob jpbw.endTime && isPostDone jpbw.jStatus && has jpbw.jStatus jobStatDone
  | .postErr =>
    since depJob jpbw.endTime && isPostErr jpbw.jStatus && has jpbw.jStatus jobStatDone
  | .exit =>
    since depJob jpbw.endTime && opExpr opType (jpbw.exitStatus >>> (8 : Nat)) exitCode &&
      (isFinish jpbw.jStatus || (isPend jpbw.jStatus && !jpbw.lastrunSucc)) &&
      !has jpbw.jStatus jobStatDone
  | .ended => since depJob jpbw.endTime && (isFinish jpbw.jStatus || isPend jpbw.jStatus)
  | .started =>
    jpbw.startTime != 0 && since depJob jpbw.startTime &&
      !has jpbw.jStatus Core.Flag.preExec.bit
  | _ => false

def isOver (type : DptType) (s : Status) : Bool :=
  has s Core.Flag.void.bit ||
    (isFinish s &&
      !(!isPostFinish s && has s jobStatDone && (type == .postDone || type == .postErr)))

/-- `inIdxList`; a `NULL` list has every index. -/
def inIdxList (jobId : Int) (idxList : List IdxRange) : Bool :=
  idxList.isEmpty || idxList.any fun idx =>
    !(lsbArrayIdx jobId < idx.start || lsbArrayIdx jobId > idx.stop) &&
      (lsbArrayIdx jobId - idx.start) % idx.step == 0

/-- The search of `depJobList` for an index; without it the last element is left. -/
def searchElement (arrayIdx : Int) : JobRec → List JobRec → JobRec
  | jpbw, [] => jpbw
  | jpbw, next :: rest =>
    if arrayIdx = lsbArrayIdx jpbw.jobId then jpbw else searchElement arrayIdx next rest

/-- What a job term looks at: a `NULL` pointer is followed, nothing is found, or jobs, one
after another. -/
inductive Looked where
  | crash
  | invalid
  | jobs (jpbw : List JobRec)
  deriving DecidableEq

section Terms

variable (st : EvalState) (depJob : Option Depending)

def lookOneToOne (jobRec : JobRec) (jobIdx : Option JobIdx) : Looked :=
  match depJob with
  | none => .crash
  | some depJob =>
    match st.getJobData (lsbJobId jobRec.jobId (lsbArrayIdx depJob.jobId).toNat) with
    | some jpbw => .jobs [jpbw]
    | none =>
      match jobIdx with
      | none => .invalid
      | some ⟨_, []⟩ => .crash
      | some ⟨_, first :: rest⟩ =>
        .jobs [searchElement (lsbArrayIdx depJob.jobId) first rest]

def lookJobs (opFlag : Bool) (jobRec : JobRec) (jobIdx : Option JobIdx) : Looked :=
  match jobRec.nodeType with
  | .job => .jobs [jobRec]
  | .array =>
    if opFlag then lookOneToOne st depJob jobRec jobIdx
    else
      match jobIdx with
      | some ⟨_, first :: rest⟩ => .jobs (first :: rest)
      | some ⟨_, []⟩ | none => .jobs (st.nextJobs jobRec)

def skipped (opFlag : Bool) (jobIdx : Option JobIdx) (jpbw : JobRec) : Bool :=
  jobIdx.any (fun idx => !inIdxList jpbw.jobId idx.idxList) && !opFlag

/-- The loop over the jobs; `value` is that of the node. -/
def evalJobs (type opType : DptType) (exitCode : Int) (skip : JobRec → Bool) :
    DpValue → List JobRec → DpValue
  | value, [] => value
  | value, jpbw :: rest =>
    if skip jpbw then evalJobs type opType exitCode skip value rest
    else if evalJobDep type opType exitCode (st.job jpbw) depJob then
      evalJobs type opType exitCode skip .dpTrue rest
    else if isOver type (st.job jpbw).jStatus then .dpInvalid
    else .dpFalse

/-! ### Windows -/

/-- `struct timeWindow`; `status` is `WINDOW_OPEN`. -/
structure TimeWindow where
  status : Bool
  week : Week
  windEdge : Int

/-- A time of today, as a `time_t`. -/
def edgeAt (hour : Rat) : Int := (st.now + (hour - st.hour) * 3600).floor

/-- `checkWindow`: whether the window is open, and the nearer of the two edges. -/
def checkWindow (windEdge : Int) (wp : Window) : Bool × Int :=
  if wp.opentime ≤ st.hour ∧ st.hour < wp.closetime then
    (true, min (edgeAt st wp.closetime) windEdge)
  else (false, min (edgeAt st (min wp.opentime 24)) windEdge)

/-- The loop of `updateTimeWindow`, up to the first open window. -/
def checkWindows : Int → List Window → Bool × Int
  | windEdge, [] => (false, windEdge)
  | windEdge, wp :: rest =>
    match checkWindow st windEdge wp with
    | (true, windEdge) => (true, windEdge)
    | (false, windEdge) => checkWindows windEdge rest

/-- `updateTimeWindow`. On a day without windows the status stays. -/
def updateTimeWindow (timeW : TimeWindow) : TimeWindow :=
  if timeW.windEdge > st.now ∨ timeW.windEdge = 0 then timeW
  else if (timeW.week st.day).isEmpty then { timeW with windEdge := edgeAt st 24 }
  else
    let checked := checkWindows st (edgeAt st 24) (timeW.week st.day)
    { timeW with status := checked.1, windEdge := checked.2 }

/-! ### Trees -/

/-- The members of `dptUnion` for the three kinds of terms. -/
inductive EvalTerm where
  | job (type opType : DptType) (exitCode : Int) (opFlag : Bool) (jobRec : Option JobRec)
      (jobIdx : Option JobIdx)
  | window (dptWindow : TimeWindow)
  | jgrp (type opType : DptType) (num : Int) (dptJgrp : Option Int)

/-- `INFINIT_INT`. -/
def infinitInt : Int := 2 ^ 31 - 1

def comparedNum (num : Int) (array : JgArrayBase) : Int :=
  if num = infinitInt then
    if array.counts .njobs ≤ 0 then infinitInt else array.counts .njobs
  else num

def ofOpen (b : Bool) : DpValue := if b then .dpTrue else .dpFalse

/-- The cases of the terms: the value, and the term with what it keeps itself. No result
is a crash. -/
def evalTerm (value : DpValue) : EvalTerm → Option (DpValue × EvalTerm)
  | .job type opType exitCode opFlag jobRec jobIdx =>
    let term := EvalTerm.job type opType exitCode opFlag jobRec jobIdx
    match jobRec with
    | none => some (.dpInvalid, term)
    | some jpbw =>
      match lookJobs st depJob opFlag jpbw jobIdx with
      | .crash => none
      | .invalid => some (.dpInvalid, term)
      | .jobs js =>
        some (evalJobs st depJob type opType exitCode (skipped opFlag jobIdx) value js, term)
  | .window dptWindow =>
    let dptWindow := updateTimeWindow st dptWindow
    some (ofOpen dptWindow.status, .window dptWindow)
  | .jgrp type opType num dptJgrp =>
    match dptJgrp with
    | none => some (.dpInvalid, .jgrp type opType num none)
    | some array =>
      if (st.jgArrayBase array).void then some (.dpInvalid, .jgrp type opType num none)
      else
        let counter := getCounterOfDep type (st.jgArrayBase array).counts
        some (ofOpen (opExpr opType counter (comparedNum num (st.jgArrayBase array))),
          .jgrp type opType num (some array))

/-- `struct dptNode` with its `value`. -/
inductive EvalNode where
  | term (value : DpValue) (data : EvalTerm)
  | not (value : DpValue) (left : EvalNode)
  | binary (value : DpValue) (type : DptType) (left right : EvalNode)

def EvalNode.value : EvalNode → DpValue
  | .term value _ | .not value _ | .binary value _ _ _ => value

@[simp] theorem EvalNode.value_term (value : DpValue) (data : EvalTerm) :
    (EvalNode.term value data).value = value := rfl

@[simp] theorem EvalNode.value_not (value : DpValue) (left : EvalNode) :
    (EvalNode.not value left).value = value := rfl

@[simp] theorem EvalNode.value_binary (value : DpValue) (type : DptType) (left right : EvalNode) :
    (EvalNode.binary value type left right).value = value := rfl

/-- `evalDepCond`. The value returned is that of the node after the call. -/
def evalDepCond : EvalNode → Option EvalNode
  | .term value data =>
    (evalTerm st depJob value data).map fun result => .term result.1 result.2
  | .not _ left =>
    (evalDepCond left).map fun left =>
      .not (match left.value with
        | .dpReject => .dpReject
        | .dpFalse | .dpInvalid => .dpTrue
        | .dpTrue => .dpFalse) left
  | .binary _ .or left right =>
    (evalDepCond left).bind fun left =>
      match left.value with
      | .dpReject => some (.binary .dpReject .or left right)
      | .dpTrue => some (.binary .dpTrue .or left right)
      | .dpFalse =>
        (evalDepCond right).map fun right =>
          .binary (match right.value with
            | .dpReject => .dpReject
            | .dpTrue => .dpTrue
            | _ => .dpFalse) .or left right
      | .dpInvalid => (evalDepCond right).map fun right => .binary right.value .or left right
  | .binary _ .and left right =>
    (evalDepCond left).bind fun left =>
      match left.value with
      | .dpInvalid => some (.binary .dpInvalid .and left right)
      | .dpReject => some (.binary .dpReject .and left right)
      | .dpFalse =>
        (evalDepCond right).map fun right =>
          .binary (match right.value with
            | .dpInvalid => .dpInvalid
            | .dpReject => .dpReject
            | _ => .dpFalse) .and left right
      | .dpTrue => (evalDepCond right).map fun right => .binary right.value .and left right
  -- a parenthesis that has become an operator
  | .binary value type left right => some (.binary value type left right)

/-- The value `evalDepCond` returns. -/
def result (node : EvalNode) : Option DpValue := (evalDepCond st depJob node).map EvalNode.value

end Terms

def firstElement : JobRec := ⟨lsbJobId 7 1, "amy", "arr[1-3]".toList, 5, .job, .job⟩

def arrayBase : JobRec := ⟨7, "amy", "arr[1-3]".toList, 5, .array, .array⟩

def oneLeft : EvalState where
  job _ := ⟨jobStatDone, false, 10, 20, 0⟩
  nextJobs _ := [firstElement]
  getJobData jobId := if jobId = firstElement.jobId then some firstElement else none
  getJobData_jobId := by
    intro jobId jp found
    split at found
    · rename_i eq
      cases found
      exact eq.symm
    · cases found
  jgArrayBase _ := ⟨false, fun _ => 0⟩
  now := 100
  day := 1
  hour := 0

end Jhlava.DepEval
