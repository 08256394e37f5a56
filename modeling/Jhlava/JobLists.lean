import Jhlava.JobArray
import Jhlava.JobCore

/-! The job lists of mbd.job.c: the functions that link and unlink a job, and the
four that move it between the lists, `handleNewJob`, `jStatusChange`,
`handleRequeueJob` and `jobInQueueEnd`. -/
namespace Jhlava.Core
open LinkedRing

/-- The global variables that are read; `replay` is
`mSchedStage == M_STAGE_REPLAY`. -/
structure Globals where
  replay : Bool
  now : Int
  glMigToPendFlag : Bool
  requeueToBottom : Bool
  arraySchedOrder : Bool
  maxUserPriority : Int
  jobPriorityValue : Int
  jobPriorityTime : Int
  deriving DecidableEq, Repr

def logIt : Int := 0

/-! ### Linking -/

def listInsertEntryBefore (m : Links Entry) (succ entry : Entry) : Links Entry :=
  let m := { m with fw := Function.update m.fw entry succ }
  let m := { m with bw := Function.update m.bw entry (m.bw succ) }
  let m := { m with fw := Function.update m.fw (m.bw succ) entry }
  { m with bw := Function.update m.bw succ entry }

def listRemoveEntry (m : Links Entry) (entry : Entry) : Links Entry :=
  if m.bw entry = .null ∨ m.fw entry = .null then m
  else
    let m := { m with fw := Function.update m.fw (m.bw entry) (m.fw entry) }
    { m with bw := Function.update m.bw (m.fw entry) (m.bw entry) }

def Entry.jp? : Entry → Option Nat
  | .job p => some p
  | _ => none

/-- The jobs of a list, in the order of `forw`. -/
def Mbd.list (s : Mbd) (l : ListNo) : List Nat :=
  (s.links.forward (.head l) (s.numJobs + 1) (s.links.fw (.head l))).filterMap Entry.jp?

def Mbd.link (s : Mbd) (succ : Entry) (p : Nat) : Mbd :=
  { s with links := listInsertEntryBefore s.links succ (.job p) }

/-- The links of the job are followed; `listno` says only which list has one entry
less in `numEnts`. -/
def offJobList (s : Mbd) (jp : Nat) (_listno : ListNo) : Mbd :=
  { s with links := listRemoveEntry s.links (.job jp) }

/-- `PJLorMJL`. -/
def pjlOrMjl (s : Mbd) (job : Nat) : ListNo :=
  if .job job ∈ s.links.backward (.head .mjl) (s.numJobs + 1) (s.links.bw (.head .mjl)) then .mjl
  else .pjl

def jobsOnSameSegment (j1 j2 : JData) : Bool :=
  j2.qPtr == j1.qPtr || j2.qPtr.priority == j1.qPtr.priority

/-- The loop of `inPendJobList`: the job before which it ends, none for the head of
the list, and `lastJob`. -/
def pendLoop (g : Globals) (jobs : Nat → JData) (job : JData) (compareTime : Int) :
    List Nat → Option Nat → Option Nat × Option Nat
  | [], lastJob => (none, lastJob)
  | p :: rest, lastJob =>
    let jp := jobs p
    if job.qPtr.priority < jp.qPtr.priority then (some p, lastJob)
    else if job.qPtr.priority = jp.qPtr.priority then
      if !jobsOnSameSegment job jp then
        let lastJob :=
          if lastJob = none ∧ (job.submitTime > jp.submitTime ∨ job.submitTime = jp.submitTime ∧
            (job.jobId = -1 ∨ jp.jobId = -1 ∨ job.jobId > jp.jobId)) then some p
          else lastJob
        let lastJob :=
          if rest.head?.any fun q => jobsOnSameSegment (jobs q) job then none else lastJob
        pendLoop g jobs job compareTime rest lastJob
      else if job.qPtr.interactiveAhead ∧ job.interactive ∧ !jp.interactive then
        pendLoop g jobs job compareTime rest lastJob
      else if job.jobPriority < jp.jobPriority then (some p, lastJob)
      else if job.jobPriority = jp.jobPriority ∧ (compareTime > jp.submitTime ∨
          compareTime = jp.submitTime ∧ (g.arraySchedOrder ∧ JobArray.lsbArrayIdx job.jobId ≠ 0 ∨
            job.jobId = -1 ∨ jp.jobId = -1 ∨ job.jobId > jp.jobId)) then (some p, lastJob)
      else
        match rest with
        | [] => (none, lastJob)
        | q :: _ =>
          if jobsOnSameSegment job jp ∧ !jobsOnSameSegment job (jobs q) then (some q, lastJob)
          else pendLoop g jobs job compareTime rest lastJob
    else pendLoop g jobs job compareTime rest lastJob

/-- The second loop of `inPendJobList`, over the jobs behind `lastJob`. -/
def segmentEnd (jobs : Nat → JData) : Nat → List Nat → Nat
  | lastJob, [] => lastJob
  | lastJob, next :: rest =>
    if jobsOnSameSegment (jobs lastJob) (jobs next) then segmentEnd jobs next rest else lastJob

/-- The job before which `inPendJobList` puts a job. -/
def pendPlace (g : Globals) (jobs : Nat → JData) (job : JData) (compareTime : Int)
    (list : List Nat) : Option Nat :=
  match pendLoop g jobs job compareTime list none with
  | (jp, none) => jp
  | (_, some lastJob) =>
    if !jobsOnSameSegment job (jobs lastJob) then
      some (segmentEnd jobs lastJob (list.takeWhile (· ≠ lastJob)).reverse)
    else some lastJob

def entryOf (l : ListNo) : Option Nat → Entry
  | none => .head l
  | some p => .job p

def inPendJobList (g : Globals) (s : Mbd) (job : Nat) (listno : ListNo) (requeueTime : Int) : Mbd :=
  let jData := s.jobs job
  let compareTime :=
    if requeueTime ≠ 0 ∧ listno = .pjl ∧ (g.requeueToBottom ∨ jData.requeue) then requeueTime
    else jData.submitTime
  let s := s.setJob job fun j => { j with requeue := false }
  s.link (entryOf listno (pendPlace g s.jobs (s.jobs job) compareTime (s.list listno))) job

/-- The condition under which the loop of `inStartJobList` ends. -/
def startsBefore (job jp : JData) : Bool :=
  job.qPtr.priority < jp.qPtr.priority || job.qPtr.priority == jp.qPtr.priority &&
    (job.startTime > jp.startTime ||
      (job.startTime == jp.startTime || job.startTime == 0) && job.jobId > jp.jobId)

def inStartJobList (s : Mbd) (job : Nat) : Mbd :=
  s.link (entryOf .sjl ((s.list .sjl).find? fun p => startsBefore (s.jobs job) (s.jobs p))) job

/-! ### Job ids -/

def getJobData (s : Mbd) (jobId : Int) : Option Nat :=
  if jobId ≤ 0 then none else s.jobIdHT.lookup jobId

def remvMemb (s : Mbd) (jobId : Int) : Mbd :=
  { s with jobIdHT := s.jobIdHT.filter fun ent => ent.1 ≠ jobId }

/-- The end of `removeJob`: the job leaves the tree, and so does an array without
elements. -/
def removeFromTree (s : Mbd) (jp : Nat) : Mbd :=
  match (s.jobs jp).jgrpNode with
  | none => s
  | some n =>
    if (s.tree n).nodeType = .array then
      let s := offArray s jp
      if (s.tree n).counts jgrpCountNjobs ≤ 0 then
        treeClip (remvMemb s (s.jobs (s.tree n).jobArray).jobId) n
      else s
    else treeClip s n

def removeJob (s : Mbd) (jobId : Int) : Mbd :=
  match getJobData s jobId with
  | none => s
  | some jp =>
    if (s.jobs jp).nodeType = .array then s
    else removeFromTree (offJobList (remvMemb s (s.jobs jp).jobId) jp .fjl) jp

/-- `addJobIdHT`. The loop ends when no job has the id; it does not when `removeJob`
leaves the job there. -/
def addJobIdHT (s : Mbd) (job : Nat) : Option Mbd :=
  let jobId := (s.jobs job).jobId
  let add (s : Mbd) : Mbd := { s with jobIdHT := (jobId, job) :: s.jobIdHT }
  if s.jobIdHT.lookup jobId = none then some (add s)
  else if getJobData s jobId = some job then some s
  else
    let s := removeJob s jobId
    if s.jobIdHT.lookup jobId = none then some (add s) else none

/-! ### Status changes -/

/-- The change that `jStatusChange` does not make: the status stays the same. -/
def sameStatus (oldStatus newStatus : Status) : Bool :=
  maskStatus (newStatus &&& ~~~jobStatUnkwn) == maskStatus (oldStatus &&& ~~~jobStatUnkwn)

/-- `resetReserve`, as far as it writes the status: a reservation that ends. -/
def resetReserve (newStatus jStatus : Status) : Status :=
  if !has jStatus Flag.reserve.bit then jStatus
  else
    let jStatus :=
      if (has newStatus jobStatPsusp || isFinish newStatus) && has jStatus jobStatPend then
        Flag.reserve.clear jStatus
      else jStatus
    if isStart jStatus && (has newStatus jobStatRun || isFinish newStatus ||
        has newStatus jobStatUsusp || has newStatus jobStatPend) then Flag.reserve.clear jStatus
    else jStatus

/-- `resetReserve` and `freeReservePreemptResources`, as `jStatusChange` calls them. -/
def endReserves (newStatus : Status) (eventTime : Int) (jStatus : Status) : Status :=
  let jStatus :=
    if eventTime = logIt ∧ has jStatus Flag.reserve.bit then resetReserve newStatus jStatus
    else jStatus
  if eventTime = logIt ∧ has jStatus Flag.rsrcPreemptWait.bit ∧
      (!isPend newStatus && !has newStatus jobStatSsusp || has newStatus jobStatPsusp ||
        isFinish newStatus) then Flag.rsrcPreemptWait.clear jStatus
  else jStatus

/-- What `jStatusChange` does before it writes the new status: reservations end, and
the counts of the tree change. -/
def beforeChange (s : Mbd) (jp : Nat) (newStatus : Status) (eventTime : Int) : Mbd :=
  let s := s.setJob jp fun j => { j with jStatus := endReserves newStatus eventTime j.jStatus }
  if 0 ≤ (s.jobs jp).jobId then updJgrpCountByJStatus s jp (s.jobs jp).jStatus newStatus else s

def writeStatus (newStatus : Status) (j : JData) : JData :=
  let j := { j with jStatus := setState j.jStatus newStatus }
  if has j.jStatus jobStatPsusp && j.hold then { j with startTime := 0 } else j

def exitNormal : Int := 0x0
def exitNoMapping : Int := 0x40
def exitInitEnviron : Int := 0x100
def exitPreExec : Int := 0x200
def pendJobPreExec : Int := 6
def pendJobRequeued : Int := 23
def pendQuePreFail : Int := 306
def pendSbdJobRequeue : Int := 311
def pendUserStop : Int := 607

/-- `handleFinishJob`, after the reason of the exit is set. -/
def handleFinishJob (s : Mbd) (jp : Nat) (oldStatus : Status) : Mbd :=
  let s := s.setJob jp fun j => { j with jStatus := Flag.mig.clear j.jStatus }
  let listno := if isStart oldStatus then .sjl else pjlOrMjl s jp
  let s := offJobList s jp listno
  s.link (s.links.fw (.head .fjl)) jp

/-- The branch of `jStatusChange` for a job that starts. -/
def jobStarts (s : Mbd) (jp : Nat) : Mbd :=
  let s := s.setJob jp fun j => { j with newReason := 0, jStatus := Flag.mig.clear j.jStatus }
  inStartJobList (offJobList s jp (pjlOrMjl s jp)) jp

def exitReason (j : JData) : JData :=
  if has j.jStatus Flag.zombie.bit ∨ j.newReason = exitInitEnviron ∨
      j.newReason = exitNoMapping ∨ j.newReason = exitPreExec then j
  else { j with newReason := exitNormal }

def jobFinishes (s : Mbd) (jp : Nat) (oldStatus : Status) : Mbd :=
  handleFinishJob (s.setJob jp exitReason) jp oldStatus

/-- The choice between the pending and the migrating jobs, in `jStatusChange` and in
`jobInQueueEnd`. -/
def inPendOrMig (g : Globals) (s : Mbd) (jp : Nat) (migTime time : Int) : Mbd :=
  if has (s.jobs jp).jStatus Flag.mig.bit then
    if g.glMigToPendFlag then
      (inPendJobList g s jp .pjl migTime).setJob jp fun j =>
        { j with jStatus := Flag.mig.clear j.jStatus }
    else inPendJobList g s jp .mjl 0
  else inPendJobList g s jp .pjl time

def resetStartTime (j : JData) : JData :=
  if j.newReason = pendJobPreExec ∨ j.newReason = pendQuePreFail ∨ j.newReason = pendSbdJobRequeue
  then { j with startTime := 0 } else j

def jobPends (g : Globals) (s : Mbd) (jp : Nat) : Mbd :=
  let s := (offJobList s jp .sjl).setJob jp resetStartTime
  let s := inPendOrMig g s jp g.now (if (s.jobs jp).newReason = pendSbdJobRequeue then g.now else 0)
  s.setJob jp fun j => { j with jStatus := Flag.preExec.clear j.jStatus }

/-- The branches of `jStatusChange` that move the job. -/
def moveJob (g : Globals) (s : Mbd) (jp : Nat) (oldStatus newStatus : Status) : Mbd :=
  if isStart newStatus && isPend oldStatus then jobStarts s jp
  else if isFinish newStatus then jobFinishes s jp oldStatus
  else if has newStatus jobStatPend && isStart oldStatus then jobPends g s jp
  else if has newStatus jobStatRun then s.setJob jp fun j => { j with newReason := 0 }
  else s

def putsBack (g : Globals) (oldStatus newStatus : Status) (eventTime : Int) : Bool :=
  g.replay && eventTime != logIt && has oldStatus jobStatRun && has oldStatus jobStatWait &&
    has newStatus (jobStatSsusp ||| jobStatUsusp)

def putBack (g : Globals) (s : Mbd) (jp : Nat) (newStatus : Status) : Mbd :=
  let s := offJobList s jp .sjl
  let s := s.setJob jp fun j =>
    { j with jStatus := if has newStatus jobStatSsusp then jobStatPend else jobStatPsusp }
  inPendJobList g s jp .pjl 0

def jStatusChange (g : Globals) (s : Mbd) (jp : Nat) (newStatus : Status) (eventTime : Int) : Mbd :=
  let oldStatus := (s.jobs jp).jStatus
  if sameStatus oldStatus newStatus then s
  else
    let newStatus := maskStatus newStatus
    let s := beforeChange s jp newStatus eventTime
    let s := moveJob g (s.setJob jp (writeStatus newStatus)) jp oldStatus newStatus
    if putsBack g oldStatus newStatus eventTime then putBack g s jp newStatus else s

/-! ### The other three -/

def maxJobPriority : Int := 0x7fffffff

/-- `modifyJobPriority`, with the unsigned arithmetic of its types. -/
def modifyJobPriority (g : Globals) (jp : JData) (subPriority : Int) : Int :=
  let timeIntvl := (Int.tdiv (g.now - jp.submitTime) 60) % 2 ^ 64
  if g.jobPriorityValue < 0 ∨ g.jobPriorityTime < 0 then subPriority
  else
    let newVal := (subPriority + timeIntvl * g.jobPriorityValue % 2 ^ 64 / g.jobPriorityTime) %
      2 ^ 32
    min newVal maxJobPriority

/-- `JOB_NEW` and `JOB_REPLAY`. -/
inductive NewJob where
  | new
  | replay
  deriving DecidableEq, Repr

/-- A new record, with the fields its callers fill in before `handleNewJob`. -/
structure Submission where
  jobId : Int
  qPtr : QData
  submitTime : Int
  userPriority : Int
  jobPriority : Int
  interactive : Bool
  hold : Bool
  rerunnable : Bool
  deriving DecidableEq, Repr

/-- `initJData` and the assignments of the callers. -/
def Submission.jData (sub : Submission) : JData where
  jobId := sub.jobId
  qPtr := sub.qPtr
  submitTime := sub.submitTime
  userPriority := sub.userPriority
  jobPriority := sub.jobPriority
  interactive := sub.interactive
  hold := sub.hold
  rerunnable := sub.rerunnable

def newJData (s : Mbd) (sub : Submission) : Mbd :=
  { s with jobs := Function.update s.jobs s.numJobs sub.jData, numJobs := s.numJobs + 1 }

def replayPriority (g : Globals) (s : Mbd) (jpbw : Nat) : Mbd :=
  let s := s.setJob jpbw fun j =>
    { j with
      jobPriority := modifyJobPriority g j
        (if j.userPriority < 0 then Int.tdiv g.maxUserPriority 2 else j.userPriority) }
  inPendJobList g (offJobList s jpbw .pjl) jpbw .pjl 0

/-- `handleNewJob` of a job record that is in the table already. -/
def enterNewJob (g : Globals) (s : Mbd) (jpbw : Nat) (job : NewJob) : Mbd :=
  let s := putOntoTree (inPendJobList g s jpbw .pjl 0) jpbw []
  let s := if job = .replay ∧ g.maxUserPriority > 0 then replayPriority g s jpbw else s
  if (s.jobs jpbw).hold then
    jStatusChange g (s.setJob jpbw fun j => { j with newReason := pendUserStop }) jpbw jobStatPsusp
      (-1)
  else s

/-- `handleNewJob`; there is no result when `addJobIdHT` does not return. -/
def handleNewJob (g : Globals) (s : Mbd) (sub : Submission) (job : NewJob) : Option Mbd :=
  (addJobIdHT (newJData s sub) s.numJobs).map fun s' => enterNewJob g s' s.numJobs job

def requeued (g : Globals) (j : JData) : JData :=
  { j with
    startTime := if j.rerunnable ∧ has j.jStatus Flag.mig.bit then 0 else j.startTime
    jStatus := jobStatPend
    jobPriority :=
      if j.userPriority > 0 then j.userPriority
      else if g.maxUserPriority > 0 then Int.tdiv g.maxUserPriority 2
      else -1 }

def handleRequeueJob (g : Globals) (s : Mbd) (jp : Nat) (requeueTime : Int) : Mbd :=
  let s := updJgrpCountByJStatus s jp (s.jobs jp).jStatus jobStatPend
  let s := inPendJobList g (offJobList (s.setJob jp (requeued g)) jp .fjl) jp .pjl requeueTime
  if (s.jobs jp).sig1Flags = jobStatPsusp then
    let s := s.setJob jp fun j => { j with jStatus := jobStatPsusp, newReason := pendUserStop }
    let s := updJgrpCountByJStatus s jp jobStatPend jobStatPsusp
    s.setJob jp fun j => { j with sig1Flags := 0 }
  else s.setJob jp fun j => { j with newReason := pendJobRequeued }

def jobInQueueEnd (g : Globals) (s : Mbd) (job : Nat) (qp : QData) : Mbd :=
  let jStatus := (s.jobs job).jStatus
  if isFinish jStatus then s
  else
    let s := offJobList s job (if isPend jStatus then pjlOrMjl s job else .sjl)
    let s := s.setJob job fun j => { j with qPtr := qp }
    if isPend jStatus then inPendOrMig g s job 0 0 else inStartJobList s job

end Jhlava.Core
