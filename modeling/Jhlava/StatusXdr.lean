import Jhlava.SubmitXdr

/-! The messages between the daemons in daemons.xdr.c: the status requests of a slave, one
by one and in chunks, and the specification of a job, with what their readers let pass. -/
namespace Jhlava.Message
open Xdr

/-! ### Status requests -/

/-- `struct lsfRusage`: the nineteen numbers from `ru_utime` to `ru_exutime`. -/
abbrev LsfRusage := Fin 19 → BitVec 64

def xdrLsfRusage : Codec LsfRusage := xdrDouble.fixed 19

structure PidInfo where
  pid : BitVec 32
  ppid : BitVec 32
  pgid : BitVec 32
  jobid : BitVec 32

def xdrPidInfo : Codec PidInfo :=
  (xdrWord.seq <| xdrWord.seq <| xdrWord.seq xdrWord).iso
    (fun (pid, ppid, pgid, jobid) => ⟨pid, ppid, pgid, jobid⟩)
    (fun p => (p.pid, p.ppid, p.pgid, p.jobid)) fun _ => rfl

/-- An array for which `calloc` must give memory, which it does not for a negative length. -/
def xdrCalloc {α : Type} (c : Codec α) : Codec (Counted α) :=
  Codec.word fun num => if num.toInt < 0 then .refused else c.fixed num.toInt.toNat

structure JRusage where
  mem : BitVec 32
  swap : BitVec 32
  utime : BitVec 32
  stime : BitVec 32
  pidInfo : Counted PidInfo
  pgid : Counted (BitVec 32)

def xdrJRusage : Codec JRusage :=
  (xdrWord.seq <| xdrWord.seq <| xdrWord.seq <| xdrWord.seq <|
    (xdrCalloc (xdrArrayElement xdrPidInfo)).seq (xdrCalloc (xdrArrayElement xdrWord))).iso
    (fun (mem, swap, utime, stime, pidInfo, pgid) => ⟨mem, swap, utime, stime, pidInfo, pgid⟩)
    (fun r => (r.mem, r.swap, r.utime, r.stime, r.pidInfo, r.pgid)) fun _ => rfl

structure StatusReq where
  jobId : BitVec 64
  jobPid : BitVec 32
  jobPGid : BitVec 32
  actPid : BitVec 32
  seq : BitVec 32
  newStatus : BitVec 32
  reason : BitVec 32
  subreasons : BitVec 32
  sbdReply : BitVec 32
  lsfRusage : LsfRusage
  execUid : BitVec 32
  execHosts : Counted CString
  exitStatus : BitVec 32
  execHome : CString
  execUsername : CString
  execCwd : CString
  queuePreCmd : CString
  queuePostCmd : CString
  msgId : BitVec 32
  runRusage : JRusage
  sigValue : BitVec 32
  actStatus : BitVec 32

/-- What `xdr_statusReq` sends, with the halves of the job id. -/
def xdrStatusFields :=
  xdrWord.seq <| xdrWord.seq <| xdrWord.seq <| xdrWord.seq <| xdrWord.seq <| xdrWord.seq <|
    xdrWord.seq <| xdrWord.seq <| xdrWord.seq <| (xdrArrayElement xdrLsfRusage).seq <|
    xdrWord.seq <| (xdrString maxHostNameLen).counted.seq <| xdrWord.seq <| xdrVarString.seq <|
    xdrVarString.seq <| xdrVarString.seq <| xdrVarString.seq <| xdrVarString.seq <| xdrWord.seq <|
    xdrJRusage.seq <| xdrWord.seq <| xdrWord.seq xdrWord

/-- `xdr_statusReq` when it reads. -/
def decodeStatusReq (m : Mem) : Option StatusReq × Mem :=
  ((xdrStatusFields.decode m).1.map fun
    (jobArrId, jobPid, jobPGid, actPid, seq, newStatus, reason, subreasons, sbdReply, lsfRusage,
    execUid, execHosts, exitStatus, execHome, execUsername, execCwd, queuePreCmd, queuePostCmd,
    msgId, runRusage, sigValue, actStatus, jobArrElemId) =>
      { jobId := jobId32To64 jobArrId jobArrElemId, jobPid, jobPGid, actPid, seq, newStatus,
        reason, subreasons, sbdReply, lsfRusage, execUid, execHosts, exitStatus, execHome,
        execUsername, execCwd, queuePreCmd, queuePostCmd, msgId, runRusage, sigValue, actStatus },
    (xdrStatusFields.decode m).2)

structure ChunkStatusReq where
  numStatusReqs : BitVec 32
  /-- The status requests of the array, nothing for one that could not be read. -/
  statusReqs : List (Option StatusReq)

/-- The loop of `xdr_chunkStatusReq`, which does not look at the results. -/
def decodeStatusReqs : Nat → Mem → List (Option StatusReq) × Mem
  | 0, m => ([], m)
  | n + 1, m =>
    let (statusReq, m) := decodeStatusReq m
    let (statusReqs, m) := decodeStatusReqs n m
    (statusReq :: statusReqs, m)

/-- `xdr_chunkStatusReq` when it reads. -/
def decodeChunkStatusReq (m : Mem) : Option ChunkStatusReq × Mem :=
  match getWord m with
  | (none, m) => (none, m)
  | (some numStatusReqs, m) =>
    let (statusReqs, m) := decodeStatusReqs numStatusReqs.toInt.toNat m
    (some ⟨numStatusReqs, statusReqs⟩, m)

/-! ### Job specifications -/

structure LsfLimit where
  rlimCurl : BitVec 32
  rlimCurh : BitVec 32
  rlimMaxl : BitVec 32
  rlimMaxh : BitVec 32

def xdrLsfLimit : Codec LsfLimit :=
  (xdrWord.seq <| xdrWord.seq <| xdrWord.seq xdrWord).iso
    (fun (rlimCurl, rlimCurh, rlimMaxl, rlimMaxh) => ⟨rlimCurl, rlimCurh, rlimMaxl, rlimMaxh⟩)
    (fun l => (l.rlimCurl, l.rlimCurh, l.rlimMaxl, l.rlimMaxh)) fun _ => rfl

/-- `nIdx`, `nThresholds`, and for each of them the pairs of `loadStop` and `loadSched`. -/
abbrev Thresholds := (nIdx : BitVec 32) × (nThresholds : BitVec 32) ×
  (Fin nThresholds.toInt.toNat → Fin nIdx.toInt.toNat → BitVec 32 × BitVec 32)

def xdrThresholds : Codec Thresholds :=
  Codec.word fun nIdx => Codec.word fun nThresholds =>
    ((xdrWord.seq xdrWord).fixed nIdx.toInt.toNat).fixed nThresholds.toInt.toNat

/-- `LSB_SIG_NUM`. -/
def sigNum : Nat := 23

structure JobSpecs where
  jobId : BitVec 64
  userId : BitVec 32
  options : BitVec 32
  nice : BitVec 16
  priority : BitVec 32
  chkSig : BitVec 32
  actPid : BitVec 32
  chkPeriod : BitVec 64
  migThresh : BitVec 64
  lastSSuspTime : BitVec 64
  lastCpuTime : BitVec 32
  lsfLimits : Fin nLimits → LsfLimit
  jStatus : BitVec 32
  reasons : BitVec 32
  subreasons : BitVec 32
  termTime : BitVec 64
  startTime : BitVec 64
  runTime : BitVec 32
  submitTime : BitVec 64
  jobPid : BitVec 32
  jobPGid : BitVec 32
  restartPid : BitVec 32
  sigValue : BitVec 32
  umask : BitVec 32
  jAttrib : BitVec 32
  jobFile : CString
  inFile : CString
  outFile : CString
  errFile : CString
  chkpntDir : CString
  cwd : CString
  subHomeDir : CString
  command : CString
  jobName : CString
  preExecCmd : CString
  fromHost : CString
  resReq : CString
  queue : CString
  windows : CString
  userName : CString
  toHosts : Counted CString
  /-- Nothing, when they could not be read. -/
  thresholds : Option Thresholds
  xf : Counted XFile
  mailUser : CString
  clusterName : CString
  projectName : CString
  preCmd : CString
  postCmd : CString
  execCwd : CString
  execHome : CString
  requeueEValues : CString
  execUid : BitVec 32
  maxNumProcessors : BitVec 32
  env : Counted CString
  eexec : List UInt8
  niosPort : BitVec 32
  resumeCond : CString
  stopCond : CString
  suspendActCmd : CString
  resumeActCmd : CString
  terminateActCmd : CString
  sigMap : Fin sigNum → BitVec 32
  actValue : BitVec 32
  loginShell : CString
  schedHostType : CString
  execHosts : CString
  options2 : BitVec 32
  jobSpoolDir : CString
  inFileSpool : CString
  commandSpool : CString
  userPriority : BitVec 32
  execUsername : CString
  prepostUsername : CString

/-- The fields of `xdr_jobSpecs` before the thresholds; `lsfLimits` are those that the record
held before. -/
def xdrSpecsHead (lsfLimits : Fin nLimits → LsfLimit) :=
  xdrWord.seq <| xdrWord.seq <| xdrWord.seq <| xdrShort.seq <| xdrWord.seq <| xdrWord.seq <|
    xdrWord.seq <| xdrTime.seq <| xdrTime.seq <| xdrTime.seq <| xdrWord.seq <| (xdrLimits
    xdrLsfLimit lsfLimits).seq <| xdrWord.seq <| xdrWord.seq <| xdrWord.seq <| xdrTime.seq <|
    xdrTime.seq <| xdrWord.seq <| xdrTime.seq <| xdrWord.seq <| xdrWord.seq <| xdrWord.seq <|
    xdrWord.seq <| xdrWord.seq <| xdrWord.seq <| (xdrString maxFileNameLen).seq <| (xdrString
    maxFileNameLen).seq <| (xdrString maxFileNameLen).seq <| (xdrString maxFileNameLen).seq <|
    (xdrString maxFileNameLen).seq <| (xdrString maxFileNameLen).seq <| (xdrString
    maxFileNameLen).seq <| (xdrString maxLineLen).seq <| (xdrString maxLineLen).seq <| (xdrString
    maxLineLen).seq <| (xdrString maxHostNameLen).seq <| (xdrString maxLineLen).seq <| (xdrString
    maxFileNameLen).seq <| (xdrString maxLineLen).seq <| (xdrString maxLsbNameLen).seq
    xdrVarString.counted

/-- The fields behind the thresholds. -/
def xdrSpecsTail :=
  (xdrArrayElement xdrXFile).counted.seq <| (xdrString maxLineLen).seq <| (xdrString
    maxLsbNameLen).seq <| (xdrString maxLsbNameLen).seq <| (xdrString maxLineLen).seq <|
    (xdrString maxLineLen).seq <| (xdrString maxFileNameLen).seq <| (xdrString
    maxFileNameLen).seq <| (xdrString maxLineLen).seq <| xdrWord.seq <| xdrWord.seq <|
    xdrVarString.counted.seq <| xdrLenData.seq <| xdrWord.seq <| (xdrString maxLineLen).seq <|
    (xdrString maxLineLen).seq <| (xdrString maxLineLen).seq <| (xdrString maxLineLen).seq <|
    (xdrString maxLineLen).seq <| (xdrWord.fixed sigNum).seq <| xdrWord.seq <| xdrVarString.seq <|
    xdrVarString.seq <| xdrVarString.seq <| xdrWord.seq <| (xdrString maxPathLen).seq <|
    xdrWord.seq <| (xdrString maxFileNameLen).seq <| (xdrString maxFileNameLen).seq <|
    xdrWord.seq <| (xdrString maxLsbNameLen).seq (xdrString maxLsbNameLen)

theorem xdrThresholds_starves : Starves xdrThresholds :=
  Starves.word fun _ => Starves.word fun _ => ((Starves.xdrWord.seq .xdrWord).fixed _).fixed _

theorem xdrSpecsTail_needs : NeedsWord xdrSpecsTail := (NeedsWord.word _).seq _

/-- What `xdr_jobSpecs` sends, with the halves of the job id. Whether the thresholds were
read is logged only. -/
def xdrSpecsFields (lsfLimits : Fin nLimits → LsfLimit) :=
  (xdrSpecsHead lsfLimits).seq
    (xdrThresholds.ignoring xdrSpecsTail xdrThresholds_starves xdrSpecsTail_needs)

/-- `xdr_jobSpecs` when it writes. -/
def encodeJobSpecs (lsfLimits : Fin nLimits → LsfLimit) (s : JobSpecs) (m : Mem) : Bool × Mem :=
  (xdrSpecsFields lsfLimits).encode
    ((lsbArrayJobId s.jobId, s.userId, s.options, s.nice, s.priority, s.chkSig, s.actPid,
      s.chkPeriod, s.migThresh, s.lastSSuspTime, s.lastCpuTime, s.lsfLimits, s.jStatus, s.reasons,
      s.subreasons, s.termTime, s.startTime, s.runTime, s.submitTime, s.jobPid, s.jobPGid,
      s.restartPid, s.sigValue, s.umask, s.jAttrib, s.jobFile, s.inFile, s.outFile, s.errFile,
      s.chkpntDir, s.cwd, s.subHomeDir, s.command, s.jobName, s.preExecCmd, s.fromHost, s.resReq,
      s.queue, s.windows, s.userName, s.toHosts), s.thresholds, s.xf, s.mailUser, s.clusterName,
      s.projectName, s.preCmd, s.postCmd, s.execCwd, s.execHome, s.requeueEValues, s.execUid,
      s.maxNumProcessors, s.env, s.eexec, s.niosPort, s.resumeCond, s.stopCond, s.suspendActCmd,
      s.resumeActCmd, s.terminateActCmd, s.sigMap, s.actValue, s.loginShell, s.schedHostType,
      s.execHosts, s.options2, s.jobSpoolDir, lsbArrayIdx s.jobId, s.inFileSpool, s.commandSpool,
      s.userPriority, s.execUsername, s.prepostUsername) m

/-- The fields as `xdr_jobSpecs` reads them. -/
def decodeJobSpecs (lsfLimits : Fin nLimits → LsfLimit) (m : Mem) : Option JobSpecs × Mem :=
  (((xdrSpecsFields lsfLimits).decode m).1.map fun
    ((jobArrId, userId, options, nice, priority, chkSig, actPid, chkPeriod, migThresh,
    lastSSuspTime, lastCpuTime, lsfLimits, jStatus, reasons, subreasons, termTime, startTime,
    runTime, submitTime, jobPid, jobPGid, restartPid, sigValue, umask, jAttrib, jobFile, inFile,
    outFile, errFile, chkpntDir, cwd, subHomeDir, command, jobName, preExecCmd, fromHost, resReq,
    queue, windows, userName, toHosts), thresholds, xf, mailUser, clusterName, projectName,
    preCmd, postCmd, execCwd, execHome, requeueEValues, execUid, maxNumProcessors, env, eexec,
    niosPort, resumeCond, stopCond, suspendActCmd, resumeActCmd, terminateActCmd, sigMap,
    actValue, loginShell, schedHostType, execHosts, options2, jobSpoolDir, jobArrElemId,
    inFileSpool, commandSpool, userPriority, execUsername, prepostUsername) =>
      { jobId := jobId32To64 jobArrId jobArrElemId, userId, options, nice, priority, chkSig,
        actPid, chkPeriod, migThresh, lastSSuspTime, lastCpuTime, lsfLimits, jStatus, reasons,
        subreasons, termTime, startTime, runTime, submitTime, jobPid, jobPGid, restartPid,
        sigValue, umask, jAttrib, jobFile, inFile, outFile, errFile, chkpntDir, cwd, subHomeDir,
        command, jobName, preExecCmd, fromHost, resReq, queue, windows, userName, toHosts,
        thresholds, xf, mailUser, clusterName, projectName, preCmd, postCmd, execCwd, execHome,
        requeueEValues, execUid, maxNumProcessors, env, eexec, niosPort, resumeCond, stopCond,
        suspendActCmd, resumeActCmd, terminateActCmd, sigMap, actValue, loginShell, schedHostType,
        execHosts, options2, jobSpoolDir, inFileSpool, commandSpool, userPriority, execUsername,
        prepostUsername },
    ((xdrSpecsFields lsfLimits).decode m).2)

/-- The texts stay inside their arrays, with the NUL that `xdr_string` puts behind them. A queue
name may be as long as the name of a file and has the array of a shorter name. -/
def JobSpecs.Inside (s : JobSpecs) : Prop :=
  (∀ text ∈ [s.queue, s.userName, s.clusterName, s.projectName, s.execUsername,
    s.prepostUsername], text.1.length < maxLsbNameLen) ∧
  s.fromHost.1.length < maxHostNameLen ∧
  (∀ text ∈ [s.jobFile, s.inFile, s.outFile, s.errFile, s.chkpntDir, s.cwd, s.subHomeDir,
    s.execCwd, s.execHome, s.inFileSpool, s.commandSpool], text.1.length < maxFileNameLen) ∧
  (∀ i, (s.xf.2 i).subFn.1.length < maxFileNameLen ∧
    (s.xf.2 i).execFn.1.length < maxFileNameLen) ∧
  (∀ text ∈ [s.command, s.jobName, s.preExecCmd, s.resReq, s.windows, s.mailUser, s.preCmd,
    s.postCmd, s.requeueEValues, s.resumeCond, s.stopCond, s.suspendActCmd, s.resumeActCmd,
    s.terminateActCmd], text.1.length < maxLineLen) ∧
  s.jobSpoolDir.1.length < maxPathLen

instance (s : JobSpecs) : Decidable s.Inside :=
  inferInstanceAs (Decidable (_ ∧ _ ∧ _ ∧ _ ∧ _ ∧ _))

/-- What a call leaves: FALSE, the record with its fields as they were read, or a record in
which a text runs over the end of its array into the fields behind it. -/
inductive SpecsRead
  | refused
  | held (s : JobSpecs)
  | overrun

/-- `xdr_jobSpecs` when it reads. -/
def readJobSpecs (lsfLimits : Fin nLimits → LsfLimit) (m : Mem) : SpecsRead :=
  match (decodeJobSpecs lsfLimits m).1 with
  | none => .refused
  | some s => if s.Inside then .held s else .overrun

end Jhlava.Message
