import Jhlava.LogRead
import Jhlava.JobIndex

/-! The job records of an event file, `lsbGetNextJobRecFromFile` of lsb.log.c: the job id is read
off the text of a line before the whole record is read. -/
namespace LogJobs
open TextScan CFormat LogWords LogRecord LogRead
open Jhlava.JobIndex (lsbArrayJobid)

/-- `EVENT_JOB_RELATED` of `getEventTypeAndKind`. -/
def jobRelated : EventType → Bool
  | .queueCtrl | .hostCtrl | .mbdDie | .mbdUnfulfill | .loadIndex | .mbdStart | .logSwitch => false
  | _ => true

/-- The job id that `checkJobEventAndJobId` scans. -/
def scanJobId (eventType : EventType) (line : Text) : Option Int32 :=
  match eventType with
  | .jobModify2 =>
    match line with
    | '"' :: line => (scanD line).map Prod.fst
    | _ => none
  | .jobSwitch | .jobMove => (scanD line).bind fun read => (scanD read.2).map Prod.fst
  | _ => (scanD line).map Prod.fst

def checkJobEventAndJobId (line : Text) (eventType : EventType) (jobIds : List Int64) : Bool :=
  match scanJobId eventType line with
  | none => true
  | some eventJobId =>
    jobIds.isEmpty || eventType == .jobNew || jobIds.any (lsbArrayJobid · == eventJobId)

/-- The strings at the head of the line go through `nameBuf`. -/
def nameBufQStr (maxLen : ℕ) : LogReader Text := do
  let nameBuf ← bufQStr maxLineLen
  reject (maxLen ≤ nameBuf.length) .eventFormat
  return nameBuf

/-- The part of `lsbGetNextJobRecFromFile` that reads one line; `none` where the loop goes on. -/
def readJobEvent (fl : FloatFormat) (jobIds : List Int64) : LogReader (Option EventRec) := do
  let etype ← nameBufQStr maxLsbNameLen
  match getEventType etype with
  | none => return none
  | some type =>
    if jobRelated type then do
      let version ← nameBufQStr maxVersionLen
      reject (fl.single (fl.double (atof version)) ≤ 0) .eventFormat
      let tempTimeStamp ← scanIntStep
      let line ← get
      if checkJobEventAndJobId line type jobIds then do
        let eventLog ← readEventRecord fl tempTimeStamp.toInt64 type
        return some { version, eventTime := tempTimeStamp.toInt64, eventLog }
      else return none
    else return none

def lsbGetNextJobRecFromFile (fl : FloatFormat) (jobIds : List Int64) (fp : Text) : Got × Text :=
  match _h : nextEventLine fp with
  | (none, rest) => (.eof, rest)
  | (some line, rest) =>
    match readJobEvent fl jobIds line with
    | .error f => (f.got, rest)
    | .ok (some r, _) => (.record r, rest)
    | .ok (none, _) => lsbGetNextJobRecFromFile fl jobIds rest
termination_by lineCount fp
decreasing_by exact nextEventLine_rest _h

/-- The records that repeated calls return, to the end of the file or to an overrun. -/
def callAll (get : Text → Got × Text) : Nat → Text → List EventRec
  | 0, _ => []
  | calls + 1, fp =>
    match get fp with
    | (.eof, _) | (.overrun, _) => []
    | (.failed _, rest) => callAll get calls rest
    | (.record r, rest) => r :: callAll get calls rest

def recordsBy (get : Text → Got × Text) (fp : Text) : List EventRec :=
  callAll get (lineCount fp + 1) fp

end LogJobs
