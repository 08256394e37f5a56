import Jhlava.LogRecord

/-! The writers of `lsb.log.c`. The fields of a record stand in the order they
are written; each text brings its leading blank. -/
namespace LogWrite
open TextScan CFormat LogWords LogRecord

/-- The format ` %d`. -/
def putD (n : Int32) : Text := ' ' :: printD n.toInt

/-- A `time_t` is cast to `int` for ` %d`. -/
def putTime (t : Int64) : Text := putD t.toInt32

/-- The format ` %w.kf`. -/
def putF (w k : ℕ) (q : ℚ) : Text := ' ' :: printF w k q

def putNames (names : CArray Text) : Text := putD names.count ++ (names.items.map addQStr).flatten

/-- File names are written by ` "%s" "%s" %d`. -/
def putXFile (x : XFile) : Text := rawQStr x.subFn ++ (rawQStr x.execFn ++ putD x.options)

def putXFiles (xf : CArray XFile) : Text := putD xf.count ++ (xf.items.map putXFile).flatten

def putLimits (l : RLimits) : Text := (l.1.map putD).flatten

def putIf (selected : Bool) (w : Text) : Text := if selected then w else []

def putBlockPort (options2 idx niosPort : Int32) : Text :=
  putD options2 ++ (putD idx ++ putIf (has options2 sub2BsubBlock) (putD niosPort))

/-- `lsfRu2Str`. -/
def lsfRu2Str (r : LsfRusage) : List Text :=
  [putF 1 6 r.ruUtime, putF 1 6 r.ruStime, putF 1 0 r.ruMaxrss, putF 1 0 r.ruIxrss,
    putF 1 0 r.ruIsmrss, putF 1 0 r.ruIdrss, putF 1 0 r.ruIsrss, putF 1 0 r.ruMinflt,
    putF 1 0 r.ruMajflt, putF 1 0 r.ruNswap, putF 1 0 r.ruInblock, putF 1 0 r.ruOublock,
    putF 1 0 r.ruIoch, putF 1 0 r.ruMsgsnd, putF 1 0 r.ruMsgrcv, putF 1 0 r.ruNsignals,
    putF 1 0 r.ruNvcsw, putF 1 0 r.ruNivcsw, putF 1 0 r.ruExutime]

/-- `writeJobNew`: the limits are put in bytes first, and newlines are taken out
of the strings a user may have broken. -/
def writeJobNew (r : JobNewLog) : List Text :=
  [putD r.jobId, putD r.userId, putD r.options, putD r.numProcessors, putTime r.submitTime,
    putTime r.beginTime, putTime r.termTime, putD r.sigValue, putD r.chkpntPeriod,
    putD r.restartPid, addQStr r.userName, putLimits (jobLimits false r.options r.rLimits),
    addQStr r.hostSpec, putF 6 2 r.hostFactor, putD r.umask, addQStr r.queue,
      addQStr (subNewLine r.resReq),
    addQStr r.fromHost, addQStr r.cwd, addQStr r.chkpntDir, addQStr r.inFile, addQStr r.outFile,
    addQStr r.errFile, addQStr r.subHomeDir, addQStr r.jobFile, putNames r.askedHosts,
    addQStr (subNewLine r.dependCond), addQStr (subNewLine r.preExecCmd), addQStr r.jobName,
    addQStr (subNewLine r.command), putXFiles r.xf, addQStr (subNewLine r.mailUser),
    addQStr r.projectName, putIf (has r.options subInteractive) (putD r.niosPort),
    putD r.maxNumProcessors, addQStr r.schedHostType, addQStr r.loginShell,
    putBlockPort r.options2 r.idx r.niosPort, addQStr r.inFileSpool, addQStr r.commandSpool,
    addQStr r.jobSpoolDir, putD r.userPriority]

def writeJobMod (r : JobModLog) : List Text :=
  [addQStr r.jobIdStr, putD r.options, putD r.options2, putD r.delOptions, putD r.userId,
    addQStr r.userName, putD r.submitTime, putD r.umask, putD r.numProcessors, putD r.beginTime,
    putD r.termTime, putD r.sigValue, putD r.restartPid,
    putIf (has r.options subJobName) (addQStr r.jobName),
    putIf (has r.options subQueue) (addQStr r.queue),
    putIf (has r.options subHost) (putNames r.askedHosts),
    putIf (has r.options subResReq) (addQStr r.resReq), putLimits r.rLimits,
    putIf (has r.options subHostSpec) (addQStr r.hostSpec),
    putIf (has r.options subDependCond) (addQStr (subNewLine r.dependCond)), addQStr r.subHomeDir,
    putIf (has r.options subInFile || has r.options2 sub2InFileSpool) (addQStr r.inFile),
    putIf (has r.options subOutFile) (addQStr r.outFile),
    putIf (has r.options subErrFile) (addQStr r.errFile),
    putIf (has r.options2 sub2ModifyCmd) (addQStr r.command),
    putIf (has r.options subChkpntPeriod) (putD r.chkpntPeriod),
    putIf (has r.options subChkpntDir) (addQStr r.chkpntDir),
    putIf (has r.options subOtherFiles) (putXFiles r.xf), addQStr r.jobFile, addQStr r.fromHost,
    addQStr r.cwd, putIf (has r.options subPreExec) (addQStr (subNewLine r.preExecCmd)),
    putIf (has r.options subMailUser) (addQStr r.mailUser),
    putIf (has r.options subProjectName) (addQStr r.projectName), putD r.niosPort,
    putD r.maxNumProcessors, putIf (has r.options subLoginShell) (addQStr r.loginShell),
    addQStr r.schedHostType, putD r.delOptions2,
    putIf (has r.options2 sub2InFileSpool) (addQStr r.inFileSpool),
    putIf (has r.options2 sub2JobCmdSpool) (addQStr r.commandSpool),
    putIf (has r.options2 sub2JobPriority) (putD r.userPriority)]

def writeJobStart (r : JobStartLog) : List Text :=
  [putD r.jobId, putD r.jStatus, putD r.jobPid, putD r.jobPGid, putF 3 1 r.hostFactor,
    putD r.execHosts.count, (r.execHosts.items.map addQStr).flatten, addQStr r.queuePreCmd,
    addQStr r.queuePostCmd, putD r.jFlags, putD r.idx]

def writeJobStartAccept (r : JobStartAcceptLog) : List Text :=
  [putD r.jobId, putD r.jobPid, putD r.jobPGid, putD r.idx]

def writeJobExecute (r : JobExecuteLog) : List Text :=
  [putD r.jobId, putD r.execUid, putD r.jobPGid, addQStr r.execCwd, addQStr r.execHome,
    addQStr r.execUsername, putD r.jobPid, putD r.idx]

def writeJobStatus (r : JobStatusLog) : List Text :=
  [putD r.jobId, putD r.jStatus, putD r.reason, putD r.subreasons, putF 4 4 r.cpuTime,
    putTime r.endTime, putD r.ru, putIf (r.ru != 0) (lsfRu2Str r.lsfRusage).flatten,
    putD r.exitStatus, putD r.idx]

def writeSbdJobStatus (r : SbdJobStatusLog) : List Text :=
  [putD r.jobId, putD r.jStatus, putD r.reasons, putD r.subreasons, putD r.actPid,
    putD r.actValue, putTime r.actPeriod, putD r.actFlags, putD r.actStatus, putD r.actReasons,
    putD r.actSubReasons, putD r.idx]

def writeJobSwitch (r : JobSwitchLog) : List Text :=
  [putD r.userId, putD r.jobId, addQStr r.queue, putD r.idx, addQStr r.userName]

def writeMig (r : MigLog) : List Text :=
  [putD r.jobId, putNames r.askedHosts, putD r.userId, putD r.idx, addQStr r.userName]

def writeJobSigAct (r : SigactLog) : List Text :=
  [putD r.jobId, putTime r.period, putD r.pid, putD r.jStatus, putD r.reasons, putD r.flags,
    putD r.actStatus, addQStr r.signalSymbol, putD r.idx]

/-- `writeJobRqueue` and `writeJobClean`. -/
def writeJobIdx (r : JobIdxLog) : List Text := [putD r.jobId, putD r.idx]

def writeChkpnt (r : ChkpntLog) : List Text :=
  [putD r.jobId, putTime r.period, putD r.pid, putD r.ok, putD r.flags, putD r.idx]

def writeJobMove (r : JobMoveLog) : List Text :=
  [putD r.userId, putD r.jobId, putD r.position, putD r.base, putD r.idx, addQStr r.userName]

def writeQueueCtrl (r : QueueCtrlLog) : List Text :=
  [putD r.opCode, addQStr r.queue, putD r.userId, addQStr r.userName]

def writeHostCtrl (r : HostCtrlLog) : List Text :=
  [putD r.opCode, addQStr r.host, putD r.userId, addQStr r.userName]

def writeMbdDie (r : MbdDieLog) : List Text :=
  [addQStr r.master, putD r.numRemoveJobs, putD r.exitCode]

def writeUnfulfill (r : UnfulfillLog) : List Text :=
  [putD r.jobId, putD r.notSwitched, putD r.sig, putD r.sig1, putD r.sig1Flags,
    putTime r.chkPeriod, putD r.notModified, putD r.idx]

def writeLoadIndex (r : LoadIndexLog) : List Text :=
  [putD r.name.count, (r.name.items.map addQStr).flatten]

/-- `writeJobFinish`: the end time and the CPU time of the record are not
written. -/
def writeJobFinish (r : JobFinishLog) : List Text :=
  [putD r.jobId, putD r.userId, putD r.options, putD r.numProcessors, putTime r.submitTime,
    putTime r.beginTime, putTime r.termTime, putTime r.startTime, addQStr r.userName,
    addQStr r.queue, addQStr r.resReq, addQStr r.dependCond, addQStr r.preExecCmd,
    addQStr r.fromHost, addQStr r.cwd, addQStr r.inFile, addQStr r.outFile, addQStr r.errFile,
    addQStr r.jobFile, putNames r.askedHosts, putNames r.execHosts, putD r.jStatus,
    putF 3 1 r.hostFactor, addQStr r.jobName, addQStr r.command, (lsfRu2Str r.lsfRusage).flatten,
    addQStr r.mailUser, addQStr r.projectName, putD r.exitStatus, putD r.maxNumProcessors,
    addQStr r.loginShell, putD r.idx, putD r.maxRMem, putD r.maxRSwap, addQStr r.inFileSpool,
    addQStr r.commandSpool]

def writeMbdStart (r : MbdStartLog) : List Text :=
  [addQStr r.master, addQStr r.cluster, putD r.numHosts, putD r.numQueues]

def writeJobSignal (r : SignalLog) : List Text :=
  [putD r.jobId, putD r.userId, putD r.runCount, addQStr r.signalSymbol, putD r.idx,
    addQStr r.userName]

/-- `writeJobMsg` and `writeJobMsgAck`. -/
def writeJobMsg (r : JobMsgLog) : List Text :=
  [putD r.usrId, putD r.jobId, putD r.msgId, putD r.type, addQStr r.src, addQStr r.dest,
    addQStr r.msg, putD r.idx]

/-- `writeJobForce`: the count of the hosts has a blank behind it too. -/
def writeJobForce (r : JobForceRequestLog) : List Text :=
  [putD r.jobId, putD r.userId, putD r.idx, putD r.options, putD r.execHosts.count ++ [' '],
    (r.execHosts.items.map addQStr).flatten, addQStr r.userName]

def writeLogSwitch (r : LogSwitchLog) : List Text := [putD r.lastJobId]

def writeJobAttrSet (r : JobAttrSetLog) : List Text :=
  [putD r.jobId, putD r.idx, putD r.uid, putD r.port]

/-- The name `lsb_puteventrec` gives each type. -/
def etype : EventType → String
  | .jobNew => "JOB_NEW"
  | .jobStart => "JOB_START"
  | .jobStatus => "JOB_STATUS"
  | .jobSwitch => "JOB_SWITCH"
  | .jobMove => "JOB_MOVE"
  | .queueCtrl => "QUEUE_CTRL"
  | .hostCtrl => "HOST_CTRL"
  | .mbdDie => "MBD_DIE"
  | .mbdUnfulfill => "UNFULFILL"
  | .jobFinish => "JOB_FINISH"
  | .loadIndex => "LOAD_INDEX"
  | .chkpnt => "CHKPNT"
  | .mig => "MIG"
  | .preExecStart => "PRE_EXEC_START"
  | .mbdStart => "MBD_START"
  | .jobModify => "JOB_MODIFY"
  | .jobSignal => "JOB_SIGNAL"
  | .jobExecute => "JOB_EXECUTE"
  | .jobMsg => "JOB_MSG"
  | .jobMsgAck => "JOB_MSG_ACK"
  | .jobRequeue => "JOB_REQUEUE"
  | .jobSigact => "JOB_SIGACT"
  | .sbdJobStatus => "SBD_JOB_STATUS"
  | .jobStartAccept => "JOB_START_ACCEPT"
  | .jobClean => "JOB_CLEAN"
  | .jobForce => "JOB_FORCE"
  | .logSwitch => "LOG_SWITCH"
  | .jobModify2 => "JOB_MODIFY2"
  | .jobAttrSet => "JOB_ATTR_SET"

def writeEventLog : EventLog → List Text
  | .jobNew r | .jobModify r => writeJobNew r
  | .jobModify2 r => writeJobMod r
  | .preExecStart r | .jobStart r => writeJobStart r
  | .jobStartAccept r => writeJobStartAccept r
  | .jobStatus r => writeJobStatus r
  | .sbdJobStatus r => writeSbdJobStatus r
  | .jobSwitch r => writeJobSwitch r
  | .jobMove r => writeJobMove r
  | .queueCtrl r => writeQueueCtrl r
  | .hostCtrl r => writeHostCtrl r
  | .mbdStart r => writeMbdStart r
  | .mbdDie r => writeMbdDie r
  | .mbdUnfulfill r => writeUnfulfill r
  | .loadIndex r => writeLoadIndex r
  | .jobFinish r => writeJobFinish r
  | .chkpnt r => writeChkpnt r
  | .mig r => writeMig r
  | .jobAttrSet r => writeJobAttrSet r
  | .jobSignal r => writeJobSignal r
  | .jobExecute r => writeJobExecute r
  | .jobMsg r | .jobMsgAck r => writeJobMsg r
  | .jobSigact r => writeJobSigAct r
  | .jobRequeue r | .jobClean r => writeJobIdx r
  | .jobForce r => writeJobForce r
  | .logSwitch r => writeLogSwitch r

/-- What each writer puts behind its last field: `writeSbdJobStatus` puts
nothing, `writeLogSwitch` and `writeJobAttrSet` a blank before the newline. -/
def lineEnd : EventType → Text
  | .sbdJobStatus => []
  | .logSwitch | .jobAttrSet => [' ', '\n']
  | _ => ['\n']

/-- The fields of a record: the format `"%s" "%s" %d`, which has no blank at its
front, and those of the writer for the type. -/
def fields (r : EventRec) : List Text :=
  rawQStr (etype r.eventLog.type).toList :: rawQStr r.version :: putTime r.eventTime ::
    writeEventLog r.eventLog

def lsbPuteventrec (r : EventRec) : Text :=
  (fields r).flatten.drop 1 ++ lineEnd r.eventLog.type

end LogWrite
