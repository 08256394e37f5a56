import Jhlava.LogWords

/-! The records of the event log. An `int` is an `Int32`, a `time_t` an `Int64`,
a floating-point number the rational it stands for. A `char *` that the source
leaves NULL is the empty text. -/
namespace LogRecord
open TextScan

/-- An array with an `int` that counts it. -/
structure CArray (α : Type) where
  items : List α
  counted : items.length < 2 ^ 31
  deriving DecidableEq

def CArray.count {α : Type} (a : CArray α) : Int32 := Int32.ofNat a.items.length

def CArray.empty {α : Type} : CArray α := ⟨[], by simp⟩

/-- What storing a decimal number in a `float` and in a `double` makes of it. -/
structure FloatFormat where
  single : ℚ → ℚ
  double : ℚ → ℚ

def nLimits : ℕ := 11

/-- `rLimits[LSF_RLIM_NLIMITS]`. -/
abbrev RLimits := { l : List Int32 // l.length = nLimits }

def noLimits : RLimits := ⟨List.replicate nLimits 0, by decide⟩

/-- The limits `convertRLimit` scales: file size, data, stack, core, resident
size and virtual memory. -/
def scaledLimit (i : ℕ) : Bool := i ∈ [1, 2, 3, 4, 5, 8]

/-- `convertRLimit`: between kilobytes and bytes, for the limits that are set. -/
def convertRLimit (toKb : Bool) (l : RLimits) : RLimits :=
  ⟨l.1.mapIdx fun i x => if scaledLimit i ∧ 0 < x then (if toKb then x / 1024 else x * 1024) else x,
    by rw [List.length_mapIdx, l.2]⟩

def has (options bit : Int32) : Bool := options &&& bit != 0

section Options

def subJobName : Int32 := 0x01
def subQueue : Int32 := 0x02
def subHost : Int32 := 0x04
def subInFile : Int32 := 0x08
def subOutFile : Int32 := 0x10
def subErrFile : Int32 := 0x20
def subChkpntPeriod : Int32 := 0x400
def subChkpntDir : Int32 := 0x800
def subHostSpec : Int32 := 0x10000
def subDependCond : Int32 := 0x20000
def subResReq : Int32 := 0x40000
def subOtherFiles : Int32 := 0x80000
def subPreExec : Int32 := 0x100000
def subLoginShell : Int32 := 0x200000
def subMailUser : Int32 := 0x400000
def subProjectName : Int32 := 0x2000000
def subInteractive : Int32 := 0x4000000
def subRlimitUnitIsKb : Int32 := 0x80000000

def sub2ModifyCmd : Int32 := 0x02
def sub2BsubBlock : Int32 := 0x04
def sub2InFileSpool : Int32 := 0x80
def sub2JobCmdSpool : Int32 := 0x100
def sub2JobPriority : Int32 := 0x200

end Options

def jobLimits (toKb : Bool) (options : Int32) (l : RLimits) : RLimits :=
  if has options subRlimitUnitIsKb then l else convertRLimit toKb l

section Limits

def maxLsbNameLen : ℕ := 60
def maxVersionLen : ℕ := 12
def maxCmdDescLen : ℕ := 256
def maxHostNameLen : ℕ := 64
def maxFileNameLen : ℕ := 256
def maxPathLen : ℕ := 4096
def maxLsfNameLen : ℕ := 40
def maxLineLen : ℕ := 512

end Limits

structure XFile where
  subFn : Text
  execFn : Text
  options : Int32
  deriving DecidableEq

structure LsfRusage where
  ruUtime : ℚ
  ruStime : ℚ
  ruMaxrss : ℚ
  ruIxrss : ℚ
  ruIsmrss : ℚ
  ruIdrss : ℚ
  ruIsrss : ℚ
  ruMinflt : ℚ
  ruMajflt : ℚ
  ruNswap : ℚ
  ruInblock : ℚ
  ruOublock : ℚ
  ruIoch : ℚ
  ruMsgsnd : ℚ
  ruMsgrcv : ℚ
  ruNsignals : ℚ
  ruNvcsw : ℚ
  ruNivcsw : ℚ
  ruExutime : ℚ
  deriving DecidableEq

def noRusage : LsfRusage := ⟨0, 0, 0, 0, 0, 0, 0, 0, 0, 0, 0, 0, 0, 0, 0, 0, 0, 0, 0⟩

/-- `struct jobNewLog`, also of JOB_MODIFY. -/
structure JobNewLog where
  jobId : Int32
  userId : Int32
  userName : Text
  options : Int32
  options2 : Int32
  numProcessors : Int32
  submitTime : Int64
  beginTime : Int64
  termTime : Int64
  sigValue : Int32
  chkpntPeriod : Int32
  restartPid : Int32
  rLimits : RLimits
  hostSpec : Text
  hostFactor : ℚ
  umask : Int32
  queue : Text
  resReq : Text
  fromHost : Text
  cwd : Text
  chkpntDir : Text
  inFile : Text
  outFile : Text
  errFile : Text
  inFileSpool : Text
  commandSpool : Text
  jobSpoolDir : Text
  subHomeDir : Text
  jobFile : Text
  askedHosts : CArray Text
  dependCond : Text
  jobName : Text
  command : Text
  xf : CArray XFile
  preExecCmd : Text
  mailUser : Text
  projectName : Text
  niosPort : Int32
  maxNumProcessors : Int32
  schedHostType : Text
  loginShell : Text
  idx : Int32
  userPriority : Int32
  deriving DecidableEq

structure JobModLog where
  jobIdStr : Text
  options : Int32
  options2 : Int32
  delOptions : Int32
  delOptions2 : Int32
  userId : Int32
  userName : Text
  submitTime : Int32
  umask : Int32
  numProcessors : Int32
  beginTime : Int32
  termTime : Int32
  sigValue : Int32
  restartPid : Int32
  jobName : Text
  queue : Text
  askedHosts : CArray Text
  resReq : Text
  rLimits : RLimits
  hostSpec : Text
  dependCond : Text
  subHomeDir : Text
  inFile : Text
  outFile : Text
  errFile : Text
  command : Text
  inFileSpool : Text
  commandSpool : Text
  chkpntPeriod : Int32
  chkpntDir : Text
  xf : CArray XFile
  jobFile : Text
  fromHost : Text
  cwd : Text
  preExecCmd : Text
  mailUser : Text
  projectName : Text
  niosPort : Int32
  maxNumProcessors : Int32
  loginShell : Text
  schedHostType : Text
  userPriority : Int32
  deriving DecidableEq

/-- `struct jobStartLog`, also of PRE_EXEC_START. -/
structure JobStartLog where
  jobId : Int32
  jStatus : Int32
  jobPid : Int32
  jobPGid : Int32
  hostFactor : ℚ
  execHosts : CArray Text
  queuePreCmd : Text
  queuePostCmd : Text
  jFlags : Int32
  idx : Int32
  deriving DecidableEq

structure JobStartAcceptLog where
  jobId : Int32
  jobPid : Int32
  jobPGid : Int32
  idx : Int32
  deriving DecidableEq

structure JobExecuteLog where
  jobId : Int32
  execUid : Int32
  execHome : Text
  execCwd : Text
  jobPGid : Int32
  execUsername : Text
  jobPid : Int32
  idx : Int32
  deriving DecidableEq

structure JobStatusLog where
  jobId : Int32
  jStatus : Int32
  reason : Int32
  subreasons : Int32
  cpuTime : ℚ
  endTime : Int64
  ru : Int32
  lsfRusage : LsfRusage
  jFlags : Int32
  exitStatus : Int32
  idx : Int32
  deriving DecidableEq

structure SbdJobStatusLog where
  jobId : Int32
  jStatus : Int32
  reasons : Int32
  subreasons : Int32
  actPid : Int32
  actValue : Int32
  actPeriod : Int64
  actFlags : Int32
  actStatus : Int32
  actReasons : Int32
  actSubReasons : Int32
  idx : Int32
  deriving DecidableEq

structure JobSwitchLog where
  userId : Int32
  jobId : Int32
  queue : Text
  idx : Int32
  userName : Text
  deriving DecidableEq

structure JobMoveLog where
  userId : Int32
  jobId : Int32
  position : Int32
  base : Int32
  idx : Int32
  userName : Text
  deriving DecidableEq

structure ChkpntLog where
  jobId : Int32
  period : Int64
  pid : Int32
  ok : Int32
  flags : Int32
  idx : Int32
  deriving DecidableEq

/-- `struct jobRequeueLog` and `struct jobCleanLog`. -/
structure JobIdxLog where
  jobId : Int32
  idx : Int32
  deriving DecidableEq

structure SigactLog where
  jobId : Int32
  period : Int64
  pid : Int32
  jStatus : Int32
  reasons : Int32
  flags : Int32
  signalSymbol : Text
  actStatus : Int32
  idx : Int32
  deriving DecidableEq

structure MigLog where
  jobId : Int32
  askedHosts : CArray Text
  userId : Int32
  idx : Int32
  userName : Text
  deriving DecidableEq

structure SignalLog where
  userId : Int32
  jobId : Int32
  signalSymbol : Text
  runCount : Int32
  idx : Int32
  userName : Text
  deriving DecidableEq

structure QueueCtrlLog where
  opCode : Int32
  queue : Text
  userId : Int32
  userName : Text
  deriving DecidableEq

structure HostCtrlLog where
  opCode : Int32
  host : Text
  userId : Int32
  userName : Text
  deriving DecidableEq

structure MbdStartLog where
  master : Text
  cluster : Text
  numHosts : Int32
  numQueues : Int32
  deriving DecidableEq

structure MbdDieLog where
  master : Text
  numRemoveJobs : Int32
  exitCode : Int32
  deriving DecidableEq

structure UnfulfillLog where
  jobId : Int32
  notSwitched : Int32
  sig : Int32
  sig1 : Int32
  sig1Flags : Int32
  chkPeriod : Int64
  notModified : Int32
  idx : Int32
  deriving DecidableEq

structure JobFinishLog where
  jobId : Int32
  userId : Int32
  userName : Text
  options : Int32
  numProcessors : Int32
  jStatus : Int32
  submitTime : Int64
  beginTime : Int64
  termTime : Int64
  startTime : Int64
  endTime : Int64
  queue : Text
  resReq : Text
  fromHost : Text
  cwd : Text
  inFile : Text
  outFile : Text
  errFile : Text
  inFileSpool : Text
  commandSpool : Text
  jobFile : Text
  askedHosts : CArray Text
  hostFactor : ℚ
  execHosts : CArray Text
  cpuTime : ℚ
  jobName : Text
  command : Text
  lsfRusage : LsfRusage
  dependCond : Text
  preExecCmd : Text
  mailUser : Text
  projectName : Text
  exitStatus : Int32
  maxNumProcessors : Int32
  loginShell : Text
  idx : Int32
  maxRMem : Int32
  maxRSwap : Int32
  deriving DecidableEq

structure LoadIndexLog where
  name : CArray Text
  deriving DecidableEq

/-- `struct jobMsgLog` and `struct jobMsgAckLog`. -/
structure JobMsgLog where
  usrId : Int32
  jobId : Int32
  msgId : Int32
  type : Int32
  src : Text
  dest : Text
  msg : Text
  idx : Int32
  deriving DecidableEq

structure JobForceRequestLog where
  userId : Int32
  execHosts : CArray Text
  jobId : Int32
  idx : Int32
  options : Int32
  userName : Text
  deriving DecidableEq

structure JobAttrSetLog where
  jobId : Int32
  idx : Int32
  uid : Int32
  port : Int32
  hostname : Text
  deriving DecidableEq

structure LogSwitchLog where
  lastJobId : Int32
  deriving DecidableEq

/-- The `EVENT_` codes that have a record. -/
inductive EventType
  | jobNew | jobStart | jobStatus | jobSwitch | jobMove | queueCtrl | hostCtrl | mbdDie
  | mbdUnfulfill | jobFinish | loadIndex | chkpnt | mig | preExecStart | mbdStart | jobModify
  | jobSignal | jobExecute | jobMsg | jobMsgAck | jobRequeue | jobSigact | sbdJobStatus
  | jobStartAccept | jobClean | jobForce | logSwitch | jobModify2 | jobAttrSet
  deriving DecidableEq

/-- `union eventLog` with the type that selects its member. -/
inductive EventLog
  | jobNew (r : JobNewLog)
  | jobStart (r : JobStartLog)
  | jobStatus (r : JobStatusLog)
  | jobSwitch (r : JobSwitchLog)
  | jobMove (r : JobMoveLog)
  | queueCtrl (r : QueueCtrlLog)
  | hostCtrl (r : HostCtrlLog)
  | mbdDie (r : MbdDieLog)
  | mbdUnfulfill (r : UnfulfillLog)
  | jobFinish (r : JobFinishLog)
  | loadIndex (r : LoadIndexLog)
  | chkpnt (r : ChkpntLog)
  | mig (r : MigLog)
  | preExecStart (r : JobStartLog)
  | mbdStart (r : MbdStartLog)
  | jobModify (r : JobNewLog)
  | jobSignal (r : SignalLog)
  | jobExecute (r : JobExecuteLog)
  | jobMsg (r : JobMsgLog)
  | jobMsgAck (r : JobMsgLog)
  | jobRequeue (r : JobIdxLog)
  | jobSigact (r : SigactLog)
  | sbdJobStatus (r : SbdJobStatusLog)
  | jobStartAccept (r : JobStartAcceptLog)
  | jobClean (r : JobIdxLog)
  | jobForce (r : JobForceRequestLog)
  | logSwitch (r : LogSwitchLog)
  | jobModify2 (r : JobModLog)
  | jobAttrSet (r : JobAttrSetLog)
  deriving DecidableEq

def EventLog.type : EventLog → EventType
  | .jobNew _ => .jobNew
  | .jobStart _ => .jobStart
  | .jobStatus _ => .jobStatus
  | .jobSwitch _ => .jobSwitch
  | .jobMove _ => .jobMove
  | .queueCtrl _ => .queueCtrl
  | .hostCtrl _ => .hostCtrl
  | .mbdDie _ => .mbdDie
  | .mbdUnfulfill _ => .mbdUnfulfill
  | .jobFinish _ => .jobFinish
  | .loadIndex _ => .loadIndex
  | .chkpnt _ => .chkpnt
  | .mig _ => .mig
  | .preExecStart _ => .preExecStart
  | .mbdStart _ => .mbdStart
  | .jobModify _ => .jobModify
  | .jobSignal _ => .jobSignal
  | .jobExecute _ => .jobExecute
  | .jobMsg _ => .jobMsg
  | .jobMsgAck _ => .jobMsgAck
  | .jobRequeue _ => .jobRequeue
  | .jobSigact _ => .jobSigact
  | .sbdJobStatus _ => .sbdJobStatus
  | .jobStartAccept _ => .jobStartAccept
  | .jobClean _ => .jobClean
  | .jobForce _ => .jobForce
  | .logSwitch _ => .logSwitch
  | .jobModify2 _ => .jobModify2
  | .jobAttrSet _ => .jobAttrSet

structure EventRec where
  version : Text
  eventTime : Int64
  eventLog : EventLog
  deriving DecidableEq

end LogRecord
