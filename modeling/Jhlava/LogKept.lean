import Jhlava.LogRoundTrip

/-! For each record, what the log keeps of it and when its reader accepts it. -/
namespace LogKept
open TextScan CFormat LogWords LogRecord LogWrite LogRead LogRoundTrip

variable (fl : FloatFormat)

/-- A `time_t` that went through an `int`. -/
def asTime (t : Int64) : Int64 := t.toInt32.toInt64

section Chains

variable {α : Type} {E : Text → Text → Prop} {ws : List Text} {c : Prop} {a : α}

variable {f : Int32 → LogReader α}

theorem thenInt {n : Int32} (next : Reads At E (f n) ws.flatten c a) :
    Reads At E (scanInt >>= f) (putD n :: ws).flatten c a :=
  (int n).andThen next

theorem thenStep {n : Int32} (next : Reads At E (f n) ws.flatten c a) :
    Reads At E (scanIntStep >>= f) (putD n :: ws).flatten c a :=
  (intStep n).andThen next

theorem thenReal {f : ℚ → LogReader α} {store : ℚ → ℚ} {w k : ℕ} {q : ℚ}
    (next : Reads At E (f (store (printedF k q))) ws.flatten c a) :
    Reads At E (scanReal store >>= f) (putF w k q :: ws).flatten c a :=
  (real store w k q).andThen next

variable {f : Text → LogReader α} {str : Text}

theorem thenSave (next : Reads At E (f str) ws.flatten c a) :
    Reads At E (saveQStr >>= f) (addQStr str :: ws).flatten c a :=
  (save str).andThen next

theorem thenOption {b : Bool} {d : Text}
    (next : Reads At E (f (if b then str else d)) ws.flatten c a) :
    Reads At E (readIf b saveQStr d >>= f) (putIf b (addQStr str) :: ws).flatten c a :=
  (optionally b d (save str)).andThen next

theorem thenCopy {maxLen : ℕ} {nonNil : Bool} (next : Reads At E (f str) ws.flatten c a) :
    Reads At E (copyQStr maxLen nonNil >>= f) (addQStr str :: ws).flatten
      (Fits maxLen nonNil str ∧ c) a :=
  (copy maxLen nonNil str).bind next

end Chains

def LsfRusage.logged (r : LsfRusage) : LsfRusage where
  ruUtime := fl.double (printedF 6 r.ruUtime)
  ruStime := fl.double (printedF 6 r.ruStime)
  ruMaxrss := fl.double (printedF 0 r.ruMaxrss)
  ruIxrss := fl.double (printedF 0 r.ruIxrss)
  ruIsmrss := fl.double (printedF 0 r.ruIsmrss)
  ruIdrss := fl.double (printedF 0 r.ruIdrss)
  ruIsrss := fl.double (printedF 0 r.ruIsrss)
  ruMinflt := fl.double (printedF 0 r.ruMinflt)
  ruMajflt := fl.double (printedF 0 r.ruMajflt)
  ruNswap := fl.double (printedF 0 r.ruNswap)
  ruInblock := fl.double (printedF 0 r.ruInblock)
  ruOublock := fl.double (printedF 0 r.ruOublock)
  ruIoch := fl.double (printedF 0 r.ruIoch)
  ruMsgsnd := fl.double (printedF 0 r.ruMsgsnd)
  ruMsgrcv := fl.double (printedF 0 r.ruMsgrcv)
  ruNsignals := fl.double (printedF 0 r.ruNsignals)
  ruNvcsw := fl.double (printedF 0 r.ruNvcsw)
  ruNivcsw := fl.double (printedF 0 r.ruNivcsw)
  ruExutime := fl.double (printedF 0 r.ruExutime)

theorem rusage (r : LsfRusage) :
    Reads At At (str2lsfRu fl) (lsfRu2Str r).flatten True (LsfRusage.logged fl r) :=
  thenReal <| thenReal <| thenReal <| thenReal <| thenReal <| thenReal <| thenReal <| thenReal <|
  thenReal <| thenReal <| thenReal <| thenReal <| thenReal <| thenReal <| thenReal <| thenReal <|
  thenReal <| thenReal <| (realStep _ _ _ _).andThen <| .pure _

section Short

def JobStartLog.logged (r : JobStartLog) : JobStartLog :=
  { r with hostFactor := fl.single (printedF 1 r.hostFactor) }

/-- The strings of a record fit the arrays they are copied to. -/
def JobStartLog.Plain (r : JobStartLog) : Prop := ∀ h ∈ r.execHosts.items, h.length < maxLineLen

def JobStartLog.Readable (r : JobStartLog) : Prop := r.execHosts.items ≠ []

theorem count_eq_zero {α : Type} (a : CArray α) : a.count = 0 ↔ a.items = [] := by
  have size := count_toNat a
  constructor
  · intro zero
    rw [zero] at size
    exact List.length_eq_zero_iff.mp size.symm
  · intro none
    rw [CArray.count, none]
    rfl

theorem jobStart {r : JobStartLog} (plain : JobStartLog.Plain r) :
    Reads At At (readJobStart fl) (writeJobStart r).flatten (JobStartLog.Readable r)
      (JobStartLog.logged fl r) := by
  refine Reads.congr (
    thenInt <| thenInt <| thenInt <| thenInt <| thenReal <| thenStep <| (Reads.check _).skip <|
    (allItems r.execHosts fun h hh => buf (plain h hh)).andThen <| thenSave <| thenSave <|
    thenStep <| thenInt <| .pure _) ?_
  simp [JobStartLog.Readable, count_eq_zero]

theorem jobStartAccept (r : JobStartAcceptLog) :
    Reads At At readJobStartAccept (writeJobStartAccept r).flatten True r :=
  thenInt <| thenInt <| thenStep <| thenStep <| .pure _

theorem jobExecute (r : JobExecuteLog) :
    Reads At At readJobExecute (writeJobExecute r).flatten True r :=
  thenInt <| thenInt <| thenStep <| thenSave <| thenSave <| thenSave <| thenStep <| thenInt <|
  .pure _

def JobStatusLog.logged (r : JobStatusLog) : JobStatusLog :=
  { r with cpuTime := fl.single (printedF 4 r.cpuTime), endTime := asTime r.endTime,
           lsfRusage := if r.ru != 0 then LsfRusage.logged fl r.lsfRusage else noRusage,
           jFlags := 0 }

theorem jobStatus (r : JobStatusLog) :
    Reads At At (readJobStatus fl) (writeJobStatus r).flatten True (JobStatusLog.logged fl r) :=
  thenInt <| thenInt <| thenInt <| thenInt <| thenReal <| thenInt <| thenStep <|
  (optionally _ _ (rusage fl _)).andThen <| thenStep <| thenInt <| .pure _

def SbdJobStatusLog.logged (r : SbdJobStatusLog) : SbdJobStatusLog :=
  { r with actPeriod := asTime r.actPeriod }

theorem sbdJobStatus (r : SbdJobStatusLog) :
    Reads At At readSbdJobStatus (writeSbdJobStatus r).flatten True (SbdJobStatusLog.logged r) :=
  thenInt <| thenInt <| thenInt <| thenInt <| thenInt <| thenInt <| thenInt <| thenInt <| thenInt <|
  thenInt <| thenInt <| thenStep <| .pure _

def JobSwitchLog.Readable (r : JobSwitchLog) : Prop :=
  Fits maxLsbNameLen true r.queue ∧ Fits maxLsbNameLen true r.userName

theorem jobSwitch (r : JobSwitchLog) :
    Reads At At readJobSwitch (writeJobSwitch r).flatten (JobSwitchLog.Readable r) r := by
  refine Reads.congr (
    thenInt <| thenStep <| thenCopy <| thenStep <| thenCopy <| .pure _) ?_
  simp [JobSwitchLog.Readable]

def JobMoveLog.Readable (r : JobMoveLog) : Prop := Fits maxLsbNameLen true r.userName

theorem jobMove (r : JobMoveLog) :
    Reads At At readJobMove (writeJobMove r).flatten (JobMoveLog.Readable r) r := by
  refine Reads.congr (
    thenInt <| thenInt <| thenInt <| thenStep <| thenStep <| thenCopy <| .pure _) ?_
  simp [JobMoveLog.Readable]

def QueueCtrlLog.Readable (r : QueueCtrlLog) : Prop :=
  Fits maxLsbNameLen true r.queue ∧ Fits maxLsbNameLen true r.userName

theorem copyBefore (maxLen : ℕ) (nonNil : Bool) (str : Text) :
    Reads (Before '"') At (copyQStr maxLen nonNil) (addQStr str) (Fits maxLen nonNil str) str :=
  reads_copyQStr (quotes_addQStr str) maxLen nonNil

theorem queueCtrl (r : QueueCtrlLog) :
    Reads At At readQueueCtrl (writeQueueCtrl r).flatten (QueueCtrlLog.Readable r) r := by
  refine Reads.congr (
    thenStep <| thenCopy <| (lookInt _).andThen <| (copyBefore _ _ _).bind <| .pure _) ?_
  simp [QueueCtrlLog.Readable]

def HostCtrlLog.Readable (r : HostCtrlLog) : Prop :=
  Fits maxHostNameLen false r.host ∧ Fits maxLsbNameLen true r.userName

theorem hostCtrl (r : HostCtrlLog) :
    Reads At At readHostCtrl (writeHostCtrl r).flatten (HostCtrlLog.Readable r) r := by
  refine Reads.congr (
    thenStep <| thenCopy <| (lookInt _).andThen <| (copyBefore _ _ _).bind <| .pure _) ?_
  simp [HostCtrlLog.Readable]

def MigLog.Plain (r : MigLog) : Prop := ∀ h ∈ r.askedHosts.items, h.length < maxHostNameLen

def MigLog.Readable (r : MigLog) : Prop := Fits maxLsbNameLen true r.userName

theorem mig {r : MigLog} (plain : MigLog.Plain r) :
    Reads At At readMig (writeMig r).flatten (MigLog.Readable r) r := by
  refine Reads.congr (
    thenInt <| (names plain).andThen <| thenStep <| (lookInt _).andThen <|
    (copyBefore _ _ _).bind <| .pure _) ?_
  simp [MigLog.Readable]

def SigactLog.logged (r : SigactLog) : SigactLog := { r with period := asTime r.period }

def SigactLog.Plain (r : SigactLog) : Prop := r.signalSymbol.length < maxLineLen

theorem jobSigact {r : SigactLog} (plain : SigactLog.Plain r) :
    Reads At At readJobSigAct (writeJobSigAct r).flatten True (SigactLog.logged r) :=
  thenInt <| thenInt <| thenInt <| thenInt <| thenInt <| thenInt <| thenStep <|
  (buf plain).andThen <| thenInt <| .pure _

theorem jobRequeue (r : JobIdxLog) : Reads At At readJobRequeue (writeJobIdx r).flatten True r :=
  thenStep <| thenStep <| .pure _

theorem jobClean (r : JobIdxLog) : Reads At At readJobClean (writeJobIdx r).flatten True r :=
  thenInt <| thenStep <| .pure _

def ChkpntLog.logged (r : ChkpntLog) : ChkpntLog := { r with period := asTime r.period }

theorem chkpnt (r : ChkpntLog) :
    Reads At At readChkpnt (writeChkpnt r).flatten True (ChkpntLog.logged r) :=
  thenInt <| thenInt <| thenInt <| thenInt <| thenStep <| thenInt <| .pure _

def MbdDieLog.Readable (r : MbdDieLog) : Prop := Fits maxHostNameLen false r.master

theorem mbdDie (r : MbdDieLog) :
    Reads At At readMbdDie (writeMbdDie r).flatten (MbdDieLog.Readable r) r := by
  refine Reads.congr (
    thenCopy <| thenInt <| thenInt <| .pure _) ?_
  simp [MbdDieLog.Readable]

def MbdStartLog.Readable (r : MbdStartLog) : Prop :=
  Fits maxHostNameLen false r.master ∧ Fits maxLsfNameLen false r.cluster

theorem mbdStart (r : MbdStartLog) :
    Reads At At readMbdStart (writeMbdStart r).flatten (MbdStartLog.Readable r) r := by
  refine Reads.congr (
    thenCopy <| thenCopy <| thenInt <| thenInt <| .pure _) ?_
  simp [MbdStartLog.Readable]

def UnfulfillLog.logged (r : UnfulfillLog) : UnfulfillLog :=
  { r with chkPeriod := asTime r.chkPeriod }

theorem unfulfill (r : UnfulfillLog) :
    Reads At At readUnfulfill (writeUnfulfill r).flatten True (UnfulfillLog.logged r) :=
  thenInt <| thenInt <| thenInt <| thenInt <| thenInt <| thenInt <| thenStep <| thenStep <| .pure _

theorem loadIndex (r : LoadIndexLog) :
    Reads At At readLoadIndex (writeLoadIndex r).flatten True r := by
  refine Reads.congr (
    thenStep <| (items r.name fun x _ => save x).bind <| .pure _) ?_
  simp

theorem logSwitch (r : LogSwitchLog) :
    Reads At At readLogSwitch (writeLogSwitch r).flatten True r :=
  thenStep <| .pure _

def SignalLog.Plain (r : SignalLog) : Prop := r.signalSymbol.length < maxLineLen

def SignalLog.Readable (r : SignalLog) : Prop := Fits maxLsbNameLen true r.userName

theorem jobSignal {r : SignalLog} (plain : SignalLog.Plain r) :
    Reads At At readJobSignal (writeJobSignal r).flatten (SignalLog.Readable r) r := by
  refine Reads.congr (
    thenInt <| thenInt <| thenStep <| (buf plain).andThen <| thenStep <| thenCopy <| .pure _) ?_
  simp [SignalLog.Readable]

def JobMsgLog.Plain (r : JobMsgLog) : Prop :=
  r.src.length < maxLineLen ∧ r.dest.length < maxLineLen ∧ r.msg.length < maxLineLen

theorem jobMsg {r : JobMsgLog} (plain : JobMsgLog.Plain r) :
    Reads At At readJobMsg (writeJobMsg r).flatten True r :=
  thenInt <| thenInt <| thenInt <| thenStep <| (buf plain.1).andThen <|
  (buf plain.2.1).andThen <| (buf plain.2.2).andThen <| thenStep <| .pure _

def JobForceRequestLog.Plain (r : JobForceRequestLog) : Prop :=
  ∀ h ∈ r.execHosts.items, h.length < maxLineLen

def JobForceRequestLog.Readable (r : JobForceRequestLog) : Prop :=
  Fits maxLsbNameLen true r.userName

theorem jobForce {r : JobForceRequestLog} (plain : JobForceRequestLog.Plain r) :
    Reads At At readJobForce (writeJobForce r).flatten (JobForceRequestLog.Readable r) r := by
  refine Reads.congr (
    thenInt <| thenInt <| thenInt <| thenInt <| (intStepBlank _).andThen <|
    (allItems r.execHosts fun h hh => buf (plain h hh)).andThen <| thenCopy <| .pure _) ?_
  simp [JobForceRequestLog.Readable]

def JobAttrSetLog.logged (r : JobAttrSetLog) : JobAttrSetLog := { r with hostname := [] }

theorem jobAttrSet (r : JobAttrSetLog) :
    Reads At At readJobAttrSet (writeJobAttrSet r).flatten True (JobAttrSetLog.logged r) :=
  thenInt <| thenInt <| thenInt <| thenInt <| .pure _

end Short

section Long

def JobNewLog.logged (r : JobNewLog) : JobNewLog :=
  { r with submitTime := asTime r.submitTime, beginTime := asTime r.beginTime,
           termTime := asTime r.termTime,
           rLimits := jobLimits true r.options (jobLimits false r.options r.rLimits),
           hostFactor := fl.single (printedF 2 r.hostFactor), resReq := subNewLine r.resReq,
           dependCond := subNewLine r.dependCond, preExecCmd := subNewLine r.preExecCmd,
           command := subNewLine r.command, mailUser := subNewLine r.mailUser,
           niosPort := if has r.options2 sub2BsubBlock then r.niosPort
             else if has r.options subInteractive then r.niosPort else 0 }

/-- The names of the files are written as they are, and so without a quote. -/
def JobNewLog.Plain (r : JobNewLog) : Prop :=
  (∀ x ∈ r.xf.items, XFile.Plain x) ∧ ∀ h ∈ r.askedHosts.items, h.length < maxLineLen

def JobNewLog.Readable (r : JobNewLog) : Prop :=
  Fits maxLsbNameLen true r.userName ∧ Fits maxHostNameLen false r.hostSpec ∧
  Fits maxLsbNameLen true r.queue ∧ Fits maxHostNameLen true r.fromHost ∧
  Fits maxFileNameLen false r.cwd ∧ Fits maxFileNameLen false r.chkpntDir ∧
  Fits maxFileNameLen false r.inFile ∧ Fits maxFileNameLen false r.outFile ∧
  Fits maxFileNameLen false r.errFile ∧ Fits maxFileNameLen false r.subHomeDir ∧
  Fits maxFileNameLen true r.jobFile ∧ Fits maxCmdDescLen false r.jobName ∧
  Fits maxCmdDescLen false (subNewLine r.command) ∧
  (∀ x ∈ r.xf.items, XFile.Readable x) ∧ Fits maxFileNameLen false r.inFileSpool ∧
  Fits maxFileNameLen false r.commandSpool ∧ Fits maxPathLen false r.jobSpoolDir

theorem jobNew {r : JobNewLog} (plain : JobNewLog.Plain r) :
    Reads At At (readJobNew fl) (writeJobNew r).flatten (JobNewLog.Readable r)
      (JobNewLog.logged fl r) := by
  refine Reads.congr (
    thenInt <| thenInt <| thenInt <| thenInt <| thenInt <| thenInt <| thenInt <| thenInt <|
    thenInt <| thenStep <| thenCopy <| (limits _).andThen <| thenCopy <| thenReal <| thenStep <|
    thenCopy <| thenSave <| thenCopy <| thenCopy <| thenCopy <| thenCopy <| thenCopy <| thenCopy <|
    thenCopy <| thenCopy <| (names plain.2).andThen <| thenSave <| thenSave <| thenCopy <|
    thenCopy <| (xFiles plain.1).bind <| thenSave <| thenSave <|
      (optionally _ _ (intStep _)).andThen <|
    thenStep <| thenSave <| thenSave <| (blockPort _ _ _ _).andThen <| (copyBefore _ _ _).bind <|
    thenCopy <| thenCopy <| thenInt <| .pure _) ?_
  simp [JobNewLog.Readable]

/-- A field is kept when its option is set. -/
def JobModLog.logged (r : JobModLog) : JobModLog :=
  { r with jobName := if has r.options subJobName then r.jobName else [],
           queue := if has r.options subQueue then r.queue else [],
           askedHosts := if has r.options subHost then r.askedHosts else .empty,
           resReq := if has r.options subResReq then r.resReq else [],
           hostSpec := if has r.options subHostSpec then r.hostSpec else [],
           dependCond := if has r.options subDependCond then subNewLine r.dependCond else [],
           inFile := if has r.options subInFile || has r.options2 sub2InFileSpool then r.inFile
             else [],
           outFile := if has r.options subOutFile then r.outFile else [],
           errFile := if has r.options subErrFile then r.errFile else [],
           command := if has r.options2 sub2ModifyCmd then r.command else [],
           chkpntPeriod := if has r.options subChkpntPeriod then r.chkpntPeriod else 0,
           chkpntDir := if has r.options subChkpntDir then r.chkpntDir else [],
           xf := if has r.options subOtherFiles then r.xf else .empty,
           preExecCmd := if has r.options subPreExec then subNewLine r.preExecCmd else [],
           mailUser := if has r.options subMailUser then r.mailUser else [],
           projectName := if has r.options subProjectName then r.projectName else [],
           loginShell := if has r.options subLoginShell then r.loginShell else [],
           inFileSpool := if has r.options2 sub2InFileSpool then r.inFileSpool else [],
           commandSpool := if has r.options2 sub2JobCmdSpool then r.commandSpool else [],
           userPriority := if has r.options2 sub2JobPriority then r.userPriority else 0 }

def JobModLog.Plain (r : JobModLog) : Prop := ∀ x ∈ r.xf.items, XFile.Plain x

def JobModLog.Readable (r : JobModLog) : Prop :=
  has r.options subOtherFiles = true → ∀ x ∈ r.xf.items, XFile.Readable x

theorem jobMod {r : JobModLog} (plain : JobModLog.Plain r) :
    Reads At At readJobMod (writeJobMod r).flatten (JobModLog.Readable r)
      (JobModLog.logged r) := by
  refine Reads.congr (
    thenSave <| thenInt <| thenInt <| thenInt <| thenStep <| thenSave <| thenInt <| thenInt <|
    thenInt <| thenInt <| thenInt <| thenInt <| thenStep <| thenOption <| thenOption <|
    (optionally _ _ (savedNames _)).andThen <| thenOption <| (limits _).andThen <| thenOption <|
    thenOption <| thenSave <| thenOption <| thenOption <| thenOption <| thenOption <|
    (optionally _ _ (intStep _)).andThen <| thenOption <| (optional _ _ (xFiles plain)).bind <|
    thenSave <| thenSave <| thenSave <| thenOption <| thenOption <| thenOption <| thenInt <|
    thenStep <| thenOption <| thenSave <| thenStep <| thenOption <| thenOption <|
    (optionally _ _ (intStep _)).andThen <| .pure _) ?_
  simp [JobModLog.Readable]

def JobFinishLog.logged (eventTime : Int64) (r : JobFinishLog) : JobFinishLog :=
  let lsfRusage := LsfRusage.logged fl r.lsfRusage
  let cpuTime := fl.single (fl.double (lsfRusage.ruUtime + lsfRusage.ruStime))
  { r with submitTime := asTime r.submitTime, beginTime := asTime r.beginTime,
           termTime := asTime r.termTime, startTime := asTime r.startTime,
           endTime := eventTime, hostFactor := fl.single (printedF 1 r.hostFactor),
           cpuTime := if cpuTime < 0 then 0 else cpuTime, lsfRusage }

def JobFinishLog.Plain (r : JobFinishLog) : Prop :=
  (∀ h ∈ r.askedHosts.items, h.length < maxLineLen) ∧
  ∀ h ∈ r.execHosts.items, h.length < maxLineLen

def JobFinishLog.Readable (r : JobFinishLog) : Prop :=
  Fits maxLsbNameLen true r.userName ∧ Fits maxLsbNameLen true r.queue ∧
  Fits maxHostNameLen true r.fromHost ∧ Fits maxFileNameLen false r.cwd ∧
  Fits maxFileNameLen false r.inFile ∧ Fits maxFileNameLen false r.outFile ∧
  Fits maxFileNameLen false r.errFile ∧ Fits maxFileNameLen true r.jobFile ∧
  Fits maxCmdDescLen false r.jobName ∧ Fits maxCmdDescLen false r.command ∧
  Fits maxFileNameLen false r.inFileSpool ∧ Fits maxFileNameLen false r.commandSpool

theorem jobFinish (eventTime : Int64) {r : JobFinishLog} (plain : JobFinishLog.Plain r) :
    Reads At At (readJobFinish fl eventTime) (writeJobFinish r).flatten (JobFinishLog.Readable r)
      (JobFinishLog.logged fl eventTime r) := by
  refine Reads.congr (
    thenInt <| thenInt <| thenInt <| thenInt <| thenInt <| thenInt <| thenInt <| thenStep <|
    thenCopy <| thenCopy <| thenSave <| thenSave <| thenSave <| thenCopy <| thenCopy <| thenCopy <|
    thenCopy <| thenCopy <| thenCopy <| (names plain.1).andThen <|
    (names plain.2).andThen <| thenInt <| (realStep _ _ _ _).andThen <| thenCopy <| thenCopy <|
      (rusage fl _).andThen <| thenSave <|
    thenSave <| thenStep <| thenStep <| thenSave <| thenStep <| thenInt <| thenStep <| thenCopy <|
    thenCopy <| .pure _) ?_
  simp [JobFinishLog.Readable]

end Long

section Events

/-- What the log keeps of a record of either side. -/
def EventLog.logged (eventTime : Int64) : EventLog → EventLog
  | .jobNew r => .jobNew (JobNewLog.logged fl r)
  | .jobModify r => .jobModify (JobNewLog.logged fl r)
  | .jobModify2 r => .jobModify2 (JobModLog.logged r)
  | .preExecStart r => .preExecStart (JobStartLog.logged fl r)
  | .jobStart r => .jobStart (JobStartLog.logged fl r)
  | .jobStatus r => .jobStatus (JobStatusLog.logged fl r)
  | .sbdJobStatus r => .sbdJobStatus (SbdJobStatusLog.logged r)
  | .mbdUnfulfill r => .mbdUnfulfill (UnfulfillLog.logged r)
  | .jobFinish r => .jobFinish (JobFinishLog.logged fl eventTime r)
  | .chkpnt r => .chkpnt (ChkpntLog.logged r)
  | .jobAttrSet r => .jobAttrSet (JobAttrSetLog.logged r)
  | .jobSigact r => .jobSigact (SigactLog.logged r)
  | e => e

def EventLog.Readable : EventLog → Prop
  | .jobNew r | .jobModify r => JobNewLog.Readable r
  | .jobModify2 r => JobModLog.Readable r
  | .preExecStart r | .jobStart r => JobStartLog.Readable r
  | .jobSwitch r => JobSwitchLog.Readable r
  | .jobMove r => JobMoveLog.Readable r
  | .queueCtrl r => QueueCtrlLog.Readable r
  | .hostCtrl r => HostCtrlLog.Readable r
  | .mbdStart r => MbdStartLog.Readable r
  | .mbdDie r => MbdDieLog.Readable r
  | .jobFinish r => JobFinishLog.Readable r
  | .mig r => MigLog.Readable r
  | .jobSignal r => SignalLog.Readable r
  | .jobForce r => JobForceRequestLog.Readable r
  | _ => True

def EventLog.Plain : EventLog → Prop
  | .jobNew r | .jobModify r => JobNewLog.Plain r
  | .jobModify2 r => JobModLog.Plain r
  | .preExecStart r | .jobStart r => JobStartLog.Plain r
  | .jobFinish r => JobFinishLog.Plain r
  | .mig r => MigLog.Plain r
  | .jobSignal r => SignalLog.Plain r
  | .jobMsg r | .jobMsgAck r => JobMsgLog.Plain r
  | .jobSigact r => SigactLog.Plain r
  | .jobForce r => JobForceRequestLog.Plain r
  | _ => True

theorem eventLog (eventTime : Int64) {e : EventLog} (plain : EventLog.Plain e) :
    Reads At At (readEventRecord fl eventTime e.type) (writeEventLog e).flatten
      (EventLog.Readable e) (EventLog.logged fl eventTime e) := by
  cases e with
  | jobNew r => exact (jobNew fl plain).map _
  | jobModify r => exact (jobNew fl plain).map _
  | jobModify2 r => exact (jobMod plain).map _
  | jobStart r => exact (jobStart fl plain).map _
  | preExecStart r => exact (jobStart fl plain).map _
  | jobStartAccept r => exact (jobStartAccept r).map _
  | jobStatus r => exact (jobStatus fl r).map _
  | sbdJobStatus r => exact (sbdJobStatus r).map _
  | jobSwitch r => exact (jobSwitch r).map _
  | jobMove r => exact (jobMove r).map _
  | queueCtrl r => exact (queueCtrl r).map _
  | hostCtrl r => exact (hostCtrl r).map _
  | mbdStart r => exact (mbdStart r).map _
  | mbdDie r => exact (mbdDie r).map _
  | mbdUnfulfill r => exact (unfulfill r).map _
  | loadIndex r => exact (loadIndex r).map _
  | jobFinish r => exact (jobFinish fl eventTime plain).map _
  | chkpnt r => exact (chkpnt r).map _
  | mig r => exact (mig plain).map _
  | jobAttrSet r => exact (jobAttrSet r).map _
  | jobSignal r => exact (jobSignal plain).map _
  | jobExecute r => exact (jobExecute r).map _
  | jobMsg r => exact (jobMsg plain).map _
  | jobMsgAck r => exact (jobMsg plain).map _
  | jobSigact r => exact (jobSigact plain).map _
  | jobRequeue r => exact (jobRequeue r).map _
  | jobClean r => exact (jobClean r).map _
  | jobForce r => exact (jobForce plain).map _
  | logSwitch r => exact (logSwitch r).map _

end Events

end LogKept
