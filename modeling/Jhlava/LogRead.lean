import Jhlava.LogWrite

/-! The readers of `lsb.log.c`. A reader moves along the line; `line += ccount`
happens in each scan, and the `+ 1` behind it is `step`. -/
namespace LogRead
open TextScan CFormat LogWords LogRecord

/-- Why a reader stops: with `LSBE_EVENT_FORMAT` or `LSBE_UNKNOWN_EVENT`, or
because a string has run over the end of the array `stripQStr` copies it to. -/
inductive Fault
  | eventFormat | unknownEvent | overrun
  deriving DecidableEq

instance : Refusal Fault := ⟨.eventFormat⟩

abbrev LogReader := Scanner Fault

def step : LogReader Unit := fun line => .ok ((), line.drop 1)

/-- `%d` of `sscanf`. -/
def scanInt : LogReader Int32 := fun line =>
  match scanD line with
  | none => .error .eventFormat
  | some read => .ok read

/-- The last `%d` before `line += ccount + 1`. -/
def scanIntStep : LogReader Int32 := do
  let n ← scanInt
  step
  return n

/-- `%f` and `%lf`, stored in the given format. -/
def scanReal (store : ℚ → ℚ) : LogReader ℚ := fun line =>
  match scanF line with
  | none => .error .eventFormat
  | some (q, rest) => .ok (store q, rest)

def scanRealStep (store : ℚ → ℚ) : LogReader ℚ := do
  let q ← scanReal store
  step
  return q

def strip : LogReader Text := fun line =>
  match stripQStr line with
  | none => .error .eventFormat
  | some read => .ok read

def saveQStr : LogReader Text := do
  let str ← strip
  step
  return str

def copyQStr (maxLen : ℕ) (nonNil : Bool) : LogReader Text := do
  let str ← saveQStr
  reject (maxLen ≤ str.length ∨ (nonNil ∧ str = [])) .eventFormat
  return str

/-- What `stripQStr` has copied at the end of a line without the closing quote. -/
def openLength : Text → ℕ
  | [] => 0
  | '"' :: '"' :: q => openLength q + 1
  | _ :: q => openLength q + 1

/-- `stripQStr` into an array of `size` characters, which nothing checks. -/
def bufQStr (size : ℕ) : LogReader Text := fun line =>
  match stripQStr line with
  | some (str, rest) => if size ≤ str.length then .error .overrun else .ok (str, rest.drop 1)
  | none =>
    if size < openLength (line.dropWhile (· ≠ '"')).tail then .error .overrun
    else .error .eventFormat

variable {α : Type}

theorem length_lt_of_int32 (n : Int32) {l : List α} (h : l.length = n.toNatClampNeg) :
    l.length < 2 ^ 31 := by
  have hi := n.toInt_lt
  have clamp : n.toNatClampNeg = n.toInt.toNat := rfl
  omega

def counted (p : LogReader α) (n : Int32) : LogReader (CArray α) := do
  let l ← times p n.toNatClampNeg
  return ⟨l.1, length_lt_of_int32 n l.2⟩

def readNames (size : ℕ) : LogReader (CArray Text) := do
  let n ← scanIntStep
  counted (bufQStr size) n

def readXFile : LogReader XFile := do
  let subFn ← copyQStr maxFileNameLen false
  let execFn ← copyQStr maxFileNameLen false
  let options ← scanIntStep
  return { subFn, execFn, options }

def readXFiles : LogReader (CArray XFile) := do
  let n ← scanIntStep
  counted readXFile n

def readLimits : LogReader RLimits := times scanIntStep nLimits

def readIf (selected : Bool) (p : LogReader α) (default : α) : LogReader α :=
  if selected then p else pure default

/-- `str2lsfRu`. -/
def str2lsfRu (fl : FloatFormat) : LogReader LsfRusage := do
  let ruUtime ← scanReal fl.double
  let ruStime ← scanReal fl.double
  let ruMaxrss ← scanReal fl.double
  let ruIxrss ← scanReal fl.double
  let ruIsmrss ← scanReal fl.double
  let ruIdrss ← scanReal fl.double
  let ruIsrss ← scanReal fl.double
  let ruMinflt ← scanReal fl.double
  let ruMajflt ← scanReal fl.double
  let ruNswap ← scanReal fl.double
  let ruInblock ← scanReal fl.double
  let ruOublock ← scanReal fl.double
  let ruIoch ← scanReal fl.double
  let ruMsgsnd ← scanReal fl.double
  let ruMsgrcv ← scanReal fl.double
  let ruNsignals ← scanReal fl.double
  let ruNvcsw ← scanReal fl.double
  let ruNivcsw ← scanReal fl.double
  let ruExutime ← scanRealStep fl.double
  return { ruUtime, ruStime, ruMaxrss, ruIxrss, ruIsmrss, ruIdrss, ruIsrss, ruMinflt, ruMajflt,
           ruNswap, ruInblock, ruOublock, ruIoch, ruMsgsnd, ruMsgrcv, ruNsignals, ruNvcsw,
           ruNivcsw, ruExutime }

def scanTwo : LogReader (Int32 × Int32) := do
  let m ← scanInt
  let n ← scanInt
  return (m, n)

def scanPort (niosPort : Int32) : LogReader Int32 := fun line =>
  if line = [] then .ok (niosPort, line) else scanInt line

/-- `options2` and `idx` are scanned without moving the line; for a blocking
submission the line moves behind them and the port is scanned there, again
without moving. The strings that follow are found by their quotes. -/
def readBlockPort (niosPort : Int32) : LogReader (Int32 × Int32 × Int32) := do
  let ints ← look scanTwo
  if has ints.1 sub2BsubBlock then do
    let _ ← scanTwo
    let port ← look (scanPort niosPort)
    return (ints.1, ints.2, port)
  else return (ints.1, ints.2, niosPort)

def readJobNew (fl : FloatFormat) : LogReader JobNewLog := do
  let jobId ← scanInt
  let userId ← scanInt
  let options ← scanInt
  let numProcessors ← scanInt
  let tmpSubmit ← scanInt
  let tmpBegin ← scanInt
  let tmpTerm ← scanInt
  let sigValue ← scanInt
  let chkpntPeriod ← scanInt
  let restartPid ← scanIntStep
  let userName ← copyQStr maxLsbNameLen true
  let rLimits ← readLimits
  let hostSpec ← copyQStr maxHostNameLen false
  let hostFactor ← scanReal fl.single
  let umask ← scanIntStep
  let queue ← copyQStr maxLsbNameLen true
  let resReq ← saveQStr
  let fromHost ← copyQStr maxHostNameLen true
  let cwd ← copyQStr maxFileNameLen false
  let chkpntDir ← copyQStr maxFileNameLen false
  let inFile ← copyQStr maxFileNameLen false
  let outFile ← copyQStr maxFileNameLen false
  let errFile ← copyQStr maxFileNameLen false
  let subHomeDir ← copyQStr maxFileNameLen false
  let jobFile ← copyQStr maxFileNameLen true
  let askedHosts ← readNames maxLineLen
  let dependCond ← saveQStr
  let preExecCmd ← saveQStr
  let jobName ← copyQStr maxCmdDescLen false
  let command ← copyQStr maxCmdDescLen false
  let xf ← readXFiles
  let mailUser ← saveQStr
  let projectName ← saveQStr
  let niosPort ← readIf (has options subInteractive) scanIntStep 0
  let maxNumProcessors ← scanIntStep
  let schedHostType ← saveQStr
  let loginShell ← saveQStr
  let (options2, idx, niosPort) ← readBlockPort niosPort
  let inFileSpool ← copyQStr maxFileNameLen false
  let commandSpool ← copyQStr maxFileNameLen false
  let jobSpoolDir ← copyQStr maxPathLen false
  let userPriority ← scanInt
  return { jobId, userId, userName, options, options2, numProcessors,
           submitTime := tmpSubmit.toInt64, beginTime := tmpBegin.toInt64,
           termTime := tmpTerm.toInt64, sigValue, chkpntPeriod, restartPid,
           rLimits := jobLimits true options rLimits, hostSpec, hostFactor, umask, queue, resReq,
           fromHost, cwd, chkpntDir, inFile, outFile, errFile, inFileSpool, commandSpool,
           jobSpoolDir, subHomeDir, jobFile, askedHosts, dependCond, jobName, command, xf,
           preExecCmd, mailUser, projectName, niosPort, maxNumProcessors, schedHostType,
           loginShell, idx, userPriority }

def readJobMod : LogReader JobModLog := do
  let jobIdStr ← saveQStr
  let options ← scanInt
  let options2 ← scanInt
  let delOptions ← scanInt
  let userId ← scanIntStep
  let userName ← saveQStr
  let submitTime ← scanInt
  let umask ← scanInt
  let numProcessors ← scanInt
  let beginTime ← scanInt
  let termTime ← scanInt
  let sigValue ← scanInt
  let restartPid ← scanIntStep
  let jobName ← readIf (has options subJobName) saveQStr []
  let queue ← readIf (has options subQueue) saveQStr []
  let askedHosts ← readIf (has options subHost) (do
    let n ← scanIntStep
    counted saveQStr n) .empty
  let resReq ← readIf (has options subResReq) saveQStr []
  let rLimits ← readLimits
  let hostSpec ← readIf (has options subHostSpec) saveQStr []
  let dependCond ← readIf (has options subDependCond) saveQStr []
  let subHomeDir ← saveQStr
  let inFile ← readIf (has options subInFile || has options2 sub2InFileSpool) saveQStr []
  let outFile ← readIf (has options subOutFile) saveQStr []
  let errFile ← readIf (has options subErrFile) saveQStr []
  let command ← readIf (has options2 sub2ModifyCmd) saveQStr []
  let chkpntPeriod ← readIf (has options subChkpntPeriod) scanIntStep 0
  let chkpntDir ← readIf (has options subChkpntDir) saveQStr []
  let xf ← readIf (has options subOtherFiles) readXFiles .empty
  let jobFile ← saveQStr
  let fromHost ← saveQStr
  let cwd ← saveQStr
  let preExecCmd ← readIf (has options subPreExec) saveQStr []
  let mailUser ← readIf (has options subMailUser) saveQStr []
  let projectName ← readIf (has options subProjectName) saveQStr []
  let niosPort ← scanInt
  let maxNumProcessors ← scanIntStep
  let loginShell ← readIf (has options subLoginShell) saveQStr []
  let schedHostType ← saveQStr
  let delOptions2 ← scanIntStep
  let inFileSpool ← readIf (has options2 sub2InFileSpool) saveQStr []
  let commandSpool ← readIf (has options2 sub2JobCmdSpool) saveQStr []
  let userPriority ← readIf (has options2 sub2JobPriority) scanIntStep 0
  return { jobIdStr, options, options2, delOptions, delOptions2, userId, userName, submitTime,
           umask, numProcessors, beginTime, termTime, sigValue, restartPid, jobName, queue,
           askedHosts, resReq, rLimits, hostSpec, dependCond, subHomeDir, inFile, outFile,
           errFile, command, inFileSpool, commandSpool, chkpntPeriod, chkpntDir, xf, jobFile,
           fromHost, cwd, preExecCmd, mailUser, projectName, niosPort, maxNumProcessors,
           loginShell, schedHostType, userPriority }

def readJobStart (fl : FloatFormat) : LogReader JobStartLog := do
  let jobId ← scanInt
  let jStatus ← scanInt
  let jobPid ← scanInt
  let jobPGid ← scanInt
  let hostFactor ← scanReal fl.single
  let numExHosts ← scanIntStep
  reject (numExHosts = 0) .eventFormat
  let execHosts ← counted (bufQStr maxLineLen) numExHosts
  let queuePreCmd ← saveQStr
  let queuePostCmd ← saveQStr
  let jFlags ← scanIntStep
  let idx ← scanInt
  return { jobId, jStatus, jobPid, jobPGid, hostFactor, execHosts, queuePreCmd, queuePostCmd,
           jFlags, idx }

def readJobStartAccept : LogReader JobStartAcceptLog := do
  let jobId ← scanInt
  let jobPid ← scanInt
  let jobPGid ← scanIntStep
  let idx ← scanIntStep
  return { jobId, jobPid, jobPGid, idx }

def readJobExecute : LogReader JobExecuteLog := do
  let jobId ← scanInt
  let execUid ← scanInt
  let jobPGid ← scanIntStep
  let execCwd ← saveQStr
  let execHome ← saveQStr
  let execUsername ← saveQStr
  let jobPid ← scanIntStep
  let idx ← scanInt
  return { jobId, execUid, execHome, execCwd, jobPGid, execUsername, jobPid, idx }

def readJobStatus (fl : FloatFormat) : LogReader JobStatusLog := do
  let jobId ← scanInt
  let jStatus ← scanInt
  let reason ← scanInt
  let subreasons ← scanInt
  let cpuTime ← scanReal fl.single
  let tmpEnd ← scanInt
  let ru ← scanIntStep
  let lsfRusage ← readIf (ru != 0) (str2lsfRu fl) noRusage
  let exitStatus ← scanIntStep
  let idx ← scanInt
  return { jobId, jStatus, reason, subreasons, cpuTime, endTime := tmpEnd.toInt64, ru, lsfRusage,
           jFlags := 0, exitStatus, idx }

def readSbdJobStatus : LogReader SbdJobStatusLog := do
  let jobId ← scanInt
  let jStatus ← scanInt
  let reasons ← scanInt
  let subreasons ← scanInt
  let actPid ← scanInt
  let actValue ← scanInt
  let tmpActPeriod ← scanInt
  let actFlags ← scanInt
  let actStatus ← scanInt
  let actReasons ← scanInt
  let actSubReasons ← scanInt
  let idx ← scanIntStep
  return { jobId, jStatus, reasons, subreasons, actPid, actValue,
           actPeriod := tmpActPeriod.toInt64, actFlags, actStatus, actReasons, actSubReasons,
           idx }

/-- `readMig`: the line is not moved behind `idx`. -/
def readMig : LogReader MigLog := do
  let jobId ← scanInt
  let askedHosts ← readNames maxHostNameLen
  let userId ← scanIntStep
  let idx ← look scanInt
  let userName ← copyQStr maxLsbNameLen true
  return { jobId, askedHosts, userId, idx, userName }

def readJobSigAct : LogReader SigactLog := do
  let jobId ← scanInt
  let tmpPeriod ← scanInt
  let pid ← scanInt
  let jStatus ← scanInt
  let reasons ← scanInt
  let flags ← scanInt
  let actStatus ← scanIntStep
  let signalSymbol ← bufQStr maxLineLen
  let idx ← scanInt
  return { jobId, period := tmpPeriod.toInt64, pid, jStatus, reasons, flags, signalSymbol,
           actStatus, idx }

def readJobRequeue : LogReader JobIdxLog := do
  let jobId ← scanIntStep
  let idx ← scanIntStep
  return { jobId, idx }

def readJobClean : LogReader JobIdxLog := do
  let jobId ← scanInt
  let idx ← scanIntStep
  return { jobId, idx }

def readChkpnt : LogReader ChkpntLog := do
  let jobId ← scanInt
  let tmpPeriod ← scanInt
  let pid ← scanInt
  let ok ← scanInt
  let flags ← scanIntStep
  let idx ← scanInt
  return { jobId, period := tmpPeriod.toInt64, pid, ok, flags, idx }

def readJobSwitch : LogReader JobSwitchLog := do
  let userId ← scanInt
  let jobId ← scanIntStep
  let queue ← copyQStr maxLsbNameLen true
  let idx ← scanIntStep
  let userName ← copyQStr maxLsbNameLen true
  return { userId, jobId, queue, idx, userName }

def readJobMove : LogReader JobMoveLog := do
  let userId ← scanInt
  let jobId ← scanInt
  let position ← scanInt
  let base ← scanIntStep
  let idx ← scanIntStep
  let userName ← copyQStr maxLsbNameLen true
  return { userId, jobId, position, base, idx, userName }

/-- `readQueueCtrl`: the line is not moved behind `userId`. -/
def readQueueCtrl : LogReader QueueCtrlLog := do
  let opCode ← scanIntStep
  let queue ← copyQStr maxLsbNameLen true
  let userId ← look scanInt
  let userName ← copyQStr maxLsbNameLen true
  return { opCode, queue, userId, userName }

/-- `readHostCtrl`: the line is not moved behind `userId`. -/
def readHostCtrl : LogReader HostCtrlLog := do
  let opCode ← scanIntStep
  let host ← copyQStr maxHostNameLen false
  let userId ← look scanInt
  let userName ← copyQStr maxLsbNameLen true
  return { opCode, host, userId, userName }

def readMbdDie : LogReader MbdDieLog := do
  let master ← copyQStr maxHostNameLen false
  let numRemoveJobs ← scanInt
  let exitCode ← scanInt
  return { master, numRemoveJobs, exitCode }

def readMbdStart : LogReader MbdStartLog := do
  let master ← copyQStr maxHostNameLen false
  let cluster ← copyQStr maxLsfNameLen false
  let numHosts ← scanInt
  let numQueues ← scanInt
  return { master, cluster, numHosts, numQueues }

def readUnfulfill : LogReader UnfulfillLog := do
  let jobId ← scanInt
  let notSwitched ← scanInt
  let sig ← scanInt
  let sig1 ← scanInt
  let sig1Flags ← scanInt
  let tmpChkPeriod ← scanInt
  let notModified ← scanIntStep
  let idx ← scanIntStep
  return { jobId, notSwitched, sig, sig1, sig1Flags, chkPeriod := tmpChkPeriod.toInt64,
           notModified, idx }

def readLoadIndex : LogReader LoadIndexLog := do
  let n ← scanIntStep
  let name ← counted saveQStr n
  return { name }

/-- `readJobFinish`: the job ended when the event was logged, and its CPU time
is what the resource usage says. -/
def readJobFinish (fl : FloatFormat) (eventTime : Int64) : LogReader JobFinishLog := do
  let jobId ← scanInt
  let userId ← scanInt
  let options ← scanInt
  let numProcessors ← scanInt
  let tmpSubmit ← scanInt
  let tmpBegin ← scanInt
  let tmpTerm ← scanInt
  let tmpStart ← scanIntStep
  let userName ← copyQStr maxLsbNameLen true
  let queue ← copyQStr maxLsbNameLen true
  let resReq ← saveQStr
  let dependCond ← saveQStr
  let preExecCmd ← saveQStr
  let fromHost ← copyQStr maxHostNameLen true
  let cwd ← copyQStr maxFileNameLen false
  let inFile ← copyQStr maxFileNameLen false
  let outFile ← copyQStr maxFileNameLen false
  let errFile ← copyQStr maxFileNameLen false
  let jobFile ← copyQStr maxFileNameLen true
  let askedHosts ← readNames maxLineLen
  let execHosts ← readNames maxLineLen
  let jStatus ← scanInt
  let hostFactor ← scanRealStep fl.single
  let jobName ← copyQStr maxCmdDescLen false
  let command ← copyQStr maxCmdDescLen false
  let lsfRusage ← str2lsfRu fl
  let cpuTime := fl.single (fl.double (lsfRusage.ruUtime + lsfRusage.ruStime))
  let mailUser ← saveQStr
  let projectName ← saveQStr
  let exitStatus ← scanIntStep
  let maxNumProcessors ← scanIntStep
  let loginShell ← saveQStr
  let idx ← scanIntStep
  let maxRMem ← scanInt
  let maxRSwap ← scanIntStep
  let inFileSpool ← copyQStr maxFileNameLen false
  let commandSpool ← copyQStr maxFileNameLen false
  return { jobId, userId, userName, options, numProcessors, jStatus,
           submitTime := tmpSubmit.toInt64, beginTime := tmpBegin.toInt64,
           termTime := tmpTerm.toInt64, startTime := tmpStart.toInt64, endTime := eventTime,
           queue, resReq, fromHost, cwd, inFile, outFile, errFile, inFileSpool, commandSpool,
           jobFile, askedHosts, hostFactor, execHosts,
           cpuTime := if cpuTime < 0 then 0 else cpuTime, jobName, command, lsfRusage,
           dependCond, preExecCmd, mailUser, projectName, exitStatus, maxNumProcessors,
           loginShell, idx, maxRMem, maxRSwap }

/-- `readLogSwitch`: the blank in `%d %n` takes the rest of the line. -/
def readLogSwitch : LogReader LogSwitchLog := do
  let lastJobId ← scanIntStep
  return { lastJobId }

def readJobSignal : LogReader SignalLog := do
  let jobId ← scanInt
  let userId ← scanInt
  let runCount ← scanIntStep
  let signalSymbol ← bufQStr maxLineLen
  let idx ← scanIntStep
  let userName ← copyQStr maxLsbNameLen true
  return { userId, jobId, signalSymbol, runCount, idx, userName }

/-- `readJobMsg` and `readJobMsgAck`. -/
def readJobMsg : LogReader JobMsgLog := do
  let usrId ← scanInt
  let jobId ← scanInt
  let msgId ← scanInt
  let type ← scanIntStep
  let src ← bufQStr maxLineLen
  let dest ← bufQStr maxLineLen
  let msg ← bufQStr maxLineLen
  let idx ← scanIntStep
  return { usrId, jobId, msgId, type, src, dest, msg, idx }

def readJobForce : LogReader JobForceRequestLog := do
  let jobId ← scanInt
  let userId ← scanInt
  let idx ← scanInt
  let options ← scanInt
  let numExecHosts ← scanIntStep
  let execHosts ← counted (bufQStr maxLineLen) numExecHosts
  let userName ← copyQStr maxLsbNameLen true
  return { userId, execHosts, jobId, idx, options, userName }

def readJobAttrSet : LogReader JobAttrSetLog := do
  let jobId ← scanInt
  let idx ← scanInt
  let uid ← scanInt
  let port ← scanInt
  return { jobId, idx, uid, port, hostname := [] }

/-- The chain of `strcmp` in `getEventTypeAndKind`. -/
def eventTypes : List (String × EventType) :=
  [("JOB_NEW", .jobNew), ("JOB_START", .jobStart), ("JOB_START_ACCEPT", .jobStartAccept),
    ("JOB_STATUS", .jobStatus), ("SBD_JOB_STATUS", .sbdJobStatus), ("JOB_EXECUTE", .jobExecute),
    ("JOB_CLEAN", .jobClean), ("JOB_SWITCH", .jobSwitch), ("JOB_MOVE", .jobMove),
    ("JOB_FINISH", .jobFinish), ("LOAD_INDEX", .loadIndex), ("CHKPNT", .chkpnt), ("MIG", .mig),
    ("PRE_EXEC_START", .preExecStart), ("JOB_MODIFY", .jobModify), ("JOB_MODIFY2", .jobModify2),
    ("JOB_ATTR_SET", .jobAttrSet), ("QUEUE_CTRL", .queueCtrl), ("HOST_CTRL", .hostCtrl),
    ("MBD_START", .mbdStart), ("MBD_DIE", .mbdDie), ("UNFULFILL", .mbdUnfulfill),
    ("JOB_SIGNAL", .jobSignal), ("JOB_MSG", .jobMsg), ("JOB_MSG_ACK", .jobMsgAck),
    ("JOB_REQUEUE", .jobRequeue), ("JOB_SIGACT", .jobSigact), ("JOB_FORCE", .jobForce),
    ("LOG_SWITCH", .logSwitch)]

def getEventType (typeStr : Text) : Option EventType :=
  (eventTypes.find? fun entry => entry.1.toList = typeStr).map Prod.snd

def readEventRecord (fl : FloatFormat) (eventTime : Int64) : EventType → LogReader EventLog
  | .jobNew => do return .jobNew (← readJobNew fl)
  | .jobModify => do return .jobModify (← readJobNew fl)
  | .jobModify2 => do return .jobModify2 (← readJobMod)
  | .preExecStart => do return .preExecStart (← readJobStart fl)
  | .jobStart => do return .jobStart (← readJobStart fl)
  | .jobStartAccept => do return .jobStartAccept (← readJobStartAccept)
  | .jobStatus => do return .jobStatus (← readJobStatus fl)
  | .sbdJobStatus => do return .sbdJobStatus (← readSbdJobStatus)
  | .jobSwitch => do return .jobSwitch (← readJobSwitch)
  | .jobMove => do return .jobMove (← readJobMove)
  | .queueCtrl => do return .queueCtrl (← readQueueCtrl)
  | .hostCtrl => do return .hostCtrl (← readHostCtrl)
  | .mbdStart => do return .mbdStart (← readMbdStart)
  | .mbdDie => do return .mbdDie (← readMbdDie)
  | .mbdUnfulfill => do return .mbdUnfulfill (← readUnfulfill)
  | .loadIndex => do return .loadIndex (← readLoadIndex)
  | .jobFinish => do return .jobFinish (← readJobFinish fl eventTime)
  | .chkpnt => do return .chkpnt (← readChkpnt)
  | .mig => do return .mig (← readMig)
  | .jobAttrSet => do return .jobAttrSet (← readJobAttrSet)
  | .jobSignal => do return .jobSignal (← readJobSignal)
  | .jobExecute => do return .jobExecute (← readJobExecute)
  | .jobMsg => do return .jobMsg (← readJobMsg)
  | .jobMsgAck => do return .jobMsgAck (← readJobMsg)
  | .jobSigact => do return .jobSigact (← readJobSigAct)
  | .jobRequeue => do return .jobRequeue (← readJobRequeue)
  | .jobClean => do return .jobClean (← readJobClean)
  | .jobForce => do return .jobForce (← readJobForce)
  | .logSwitch => do return .logSwitch (← readLogSwitch)

def headStr (maxLen : ℕ) : LogReader Text := fun line =>
  match stripQStr line with
  | none => .error .eventFormat
  | some (str, rest) =>
    if rest = [] ∨ maxLen ≤ str.length then .error .eventFormat else .ok (str, rest.drop 1)

/-- The part of `lsb_geteventrec_ex` that reads one line. -/
def readEvent (fl : FloatFormat) : LogReader EventRec := do
  let etype ← headStr maxLsbNameLen
  let version ← headStr maxVersionLen
  reject (fl.single (fl.double (atof version)) ≤ 0) .eventFormat
  let tempTimeStamp ← scanIntStep
  match getEventType etype with
  | none => throw .unknownEvent
  | some type => do
      let eventLog ← readEventRecord fl tempTimeStamp.toInt64 type
      return { version, eventTime := tempTimeStamp.toInt64, eventLog }

/-- What a call of `lsb_geteventrec_ex` returns: NULL comes with `LSBE_EOF` or
with the reason no record could be read. Once an array is overrun, nothing is
known of the call or of what comes after it. -/
inductive Got
  | record (r : EventRec)
  | eof
  | failed (f : Fault)
  | overrun
  deriving DecidableEq

def Fault.got : Fault → Got
  | .overrun => .overrun
  | f => .failed f

def nextEventLine (fp : Text) : Option Text × Text :=
  match _h : getNextLine fp with
  | (none, rest) => (none, rest)
  | (some line, rest) => if line.head? = some '#' then nextEventLine rest else (some line, rest)
termination_by lineCount fp
decreasing_by exact getNextLine_rest _h

theorem nextEventLine_rest {fp line rest : Text} (h : nextEventLine fp = (some line, rest)) :
    lineCount rest < lineCount fp := by
  induction size : lineCount fp using Nat.strongRecOn generalizing fp with
  | ind n ih =>
    subst size
    rw [nextEventLine] at h
    split at h
    · cases h
    · rename_i line' rest' next
      have shorter := getNextLine_rest next
      split at h
      · exact Nat.lt_trans (ih (lineCount rest') shorter h rfl) shorter
      · cases h
        exact shorter

def lsbGeteventrecEx (fl : FloatFormat) (fp : Text) : Got × Text :=
  match nextEventLine fp with
  | (none, rest) => (.eof, rest)
  | (some line, rest) =>
    match readEvent fl line with
    | .error f => (f.got, rest)
    | .ok (r, _) => (.record r, rest)

end LogRead
