import Jhlava.DepMatch
import Jhlava.IdxBounds
import Jhlava.MbdAccounts

/-! The elements of a job array in mbd.jarray.c: the three loops over an index
list, in `handleNewJobArray`, `getJobIdList` and `inIdxList`. -/
namespace Jhlava.JobArray
open CValues CLoop

/-- `LSB_JOBID`, stored in a signed 64-bit integer. -/
def lsbJobId (arrayJobId : Nat) (arrayIdx : Int) : Int :=
  Int.bmod (((arrayIdx % 2 ^ 32).toNat <<< 32 ||| arrayJobId : Nat) : Int) (2 ^ 64)

/-- `LSB_ARRAY_IDX`. -/
def lsbArrayIdx (jobId : Int) : Int :=
  if jobId = -1 then 0 else (((jobId % 2 ^ 64).toNat >>> 32 &&& 0xFFFF : Nat) : Int)

inductive NodeType where
  | job
  | array
  deriving DecidableEq, Repr

/-- `jobIdHT`, as far as it is read here: the jobs by their id. -/
abbrev JobIdHT := List (Int × NodeType)

def getJobData (jobIdHT : JobIdHT) (jobId : Int) : Option NodeType :=
  if jobId ≤ 0 then none else jobIdHT.lookup jobId

/-- `addJobIdHT`. A job of the same id is removed first; an array, and a job that
`getJobData` does not find, is not removed, and then the loop does not end. -/
def addJobIdHT (jobIdHT : JobIdHT) (jobId : Int) (nodeType : NodeType) : Option JobIdHT :=
  if jobIdHT.lookup jobId = none then some ((jobId, nodeType) :: jobIdHT)
  else if getJobData jobIdHT jobId = some .job then
    some ((jobId, nodeType) :: jobIdHT.filter fun job => job.1 ≠ jobId)
  else none

/-- An element job; `userStop` is the reason `PEND_USER_STOP`. -/
structure Element where
  jobId : Int
  jStatus : Mbd.JobState
  userStop : Bool
  deriving DecidableEq, Repr

structure ArrayState where
  jobIdHT : JobIdHT
  elements : List Element
  deriving DecidableEq, Repr

/-- The body of the loop of `handleNewJobArray`. -/
def newElement (jobId : Nat) (hold : Bool) (s : ArrayState) (i : Int) : Option ArrayState :=
  if getJobData s.jobIdHT (lsbJobId jobId i) ≠ none then some s
  else (addJobIdHT s.jobIdHT (lsbJobId jobId i) .job).map fun jobIdHT =>
    { jobIdHT
      elements := s.elements ++
        [⟨lsbJobId jobId i, if hold then .psusp else .pend, hold⟩] }

def forRanges {σ : Type} (body : σ → Int → Option σ) (fuel : Nat) : List IdxRange → σ → Option σ
  | [], s => some s
  | idx :: rest, s => (forLoop body idx.end_ idx.step fuel idx.start s).bind
    (forRanges body fuel rest)

/-- `handleNewJobArray`, for a submission with or without `SUB2_HOLD`. -/
def handleNewJobArray (fuel : Nat) (jobIdHT : JobIdHT) (jobId : Nat) (hold : Bool)
    (idxList : List IdxRange) : Option ArrayState :=
  (addJobIdHT jobIdHT jobId .array).bind fun jobIdHT =>
    forRanges (newElement jobId hold) fuel idxList ⟨jobIdHT, []⟩

def inIdxList (jobId : Int) (idxList : List IdxRange) : Bool :=
  idxList.isEmpty || idxList.any fun idx =>
    !(lsbArrayIdx jobId < idx.start || lsbArrayIdx jobId > idx.end_) &&
      Int.tmod (lsbArrayIdx jobId - idx.start) idx.step == 0

inductive JobIdError where
  | badJobId
  | index (error : IdxError)
  deriving DecidableEq, Repr

/-- `getJobIdIndexList`: the id and the index list of a text. -/
def getJobIdIndexList (env : MbdStage) (fuel : Nat) (token jobIdStr : List Char) :
    Option (Except JobIdError (Int × List IdxRange)) :=
  let digits := jobIdStr.takeWhile (· ≠ '[')
  let jobId := atoi digits
  if digits = jobIdStr then
    if !Dep.isint digits || jobId < 0 then some (.error .badJobId) else some (.ok (jobId, []))
  else if !Dep.isint digits || jobId ≤ 0 then some (.error .badJobId)
  else (parseJobArrayIndex env fuel token jobIdStr 0).map fun parsed =>
    if parsed.idxList = [] then .error (.index parsed.error) else .ok (jobId, parsed.idxList)

/-- `getJobIdIndexList` on the caller's string: the characters it leaves there, and its answer. The
string is cut at its bracket while the id is tested. -/
def getJobIdIndexListIn (env : MbdStage) (fuel : Nat) (token jobIdStr : List Char) :
    Option (List Char × Except JobIdError (Int × List IdxRange)) :=
  let digits := jobIdStr.takeWhile (· ≠ '[')
  let index := jobIdStr.drop (digits.length + 1)
  let jobId := atoi digits
  if '[' ∈ jobIdStr then
    if !Dep.isint digits || jobId ≤ 0 then
      some (digits ++ '\x00' :: index, .error .badJobId)
    else (parseJobArrayIndex env fuel token (digits ++ '[' :: index) 0).map fun parsed =>
      (digits ++ '[' :: index, if parsed.idxList = [] then .error (.index parsed.error)
        else .ok (jobId, parsed.idxList))
  else if !Dep.isint digits || jobId < 0 then some (jobIdStr, .error .badJobId)
  else some (jobIdStr, .ok (jobId, []))

/-- The body of the loop of `getJobIdList`: an id that is not there yet is added. -/
def listId (jobId : Nat) (jobIds : List Int) (j : Int) : Option (List Int) :=
  some (if lsbJobId jobId j ∈ jobIds then jobIds else jobIds ++ [lsbJobId jobId j])

/-- `getJobIdList`, with a bound for the turns of the parser and one for those of
the loop. -/
def getJobIdList (env : MbdStage) (fuel turns : Nat) (token jobIdStr : List Char) :
    Option (Except JobIdError (List Int)) :=
  (getJobIdIndexList env fuel token jobIdStr).bind fun
    | .error e => some (.error e)
    | .ok (jobId, idxList) =>
      if jobId ≤ 0 then some (.error .badJobId)
      else if idxList = [] then some (.ok [jobId])
      else (forRanges (listId jobId.toNat) turns idxList []).map .ok

end Jhlava.JobArray
