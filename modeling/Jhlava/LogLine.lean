import Jhlava.LogKept

/-! The text of a record can stand on a line: when its strings are printable,
every character of it is, and it does not end with a blank. -/
namespace LogLine
open TextScan CFormat LogWords LogRecord LogWrite List

section Lines

/-- A text that can be shown on a line and does not end with a blank. -/
structure Neat (w : Text) : Prop where
  shown : ∀ c ∈ w, Printable c
  tight : w.getLast? ≠ some ' '

theorem Neat.nil : Neat [] := ⟨by simp, by simp⟩

variable {str v : Text}

theorem Neat.append {w : Text} (hv : Neat v) (hw : Neat w) : Neat (v ++ w) where
  shown := by
    intro c hc
    rcases mem_append.mp hc with left | right
    · exact hv.shown c left
    · exact hw.shown c right
  tight := by
    rw [List.getLast?_append]
    cases h : w.getLast? with
    | none => exact hv.tight
    | some c =>
      intro blank
      cases blank
      exact hw.tight h

theorem Neat.flatten {ws : List Text} (h : ∀ w ∈ ws, Neat w) : Neat ws.flatten := by
  induction ws with
  | nil => exact Neat.nil
  | cons w ws ih =>
    exact (h w mem_cons_self).append (ih fun v hv => h v (mem_cons_of_mem w hv))

theorem Neat.concat {c : Char} (shown : ∀ d ∈ v, Printable d) (hc : Printable c) (blank : c ≠ ' ') :
    Neat (v ++ [c]) where
  shown := by
    intro d hd
    rcases mem_append.mp hd with left | right
    · exact shown d left
    · rwa [mem_singleton.mp right]
  tight := by simpa using blank

theorem printable_of_isDigit {c : Char} (h : c.isDigit = true) : Printable c ∧ c ≠ ' ' := by
  refine ⟨?_, ?_⟩
  · simp only [Char.isDigit, Bool.and_eq_true, decide_eq_true_eq] at h
    have lo : 48 ≤ c.toNat := h.1
    have hi : c.toNat ≤ 57 := h.2
    exact ⟨by omega, by omega⟩
  · rintro rfl
    revert h
    decide

theorem neat_digits {ds : Text} (shown : ∀ c ∈ v, Printable c) (digits : ∀ c ∈ ds, c.isDigit = true)
    (some_digit : ds ≠ []) : Neat (v ++ ds) where
  shown := by
    intro c hc
    rcases mem_append.mp hc with left | right
    · exact shown c left
    · exact (printable_of_isDigit (digits c right)).1
  tight := by
    rw [List.getLast?_append, List.getLast?_eq_some_getLast some_digit]
    intro blank
    exact (printable_of_isDigit (digits _ (getLast_mem some_digit))).2 (Option.some.inj blank)

theorem neat_putD (n : Int32) : Neat (putD n) := by
  have shape : putD n = (' ' :: if n.toInt < 0 then ['-'] else []) ++
      Nat.toDigits 10 n.toInt.natAbs := by
    rw [putD, printD]
    split <;> rfl
  rw [shape]
  apply neat_digits _ (fun _ => isDigit_toDigits) Nat.toDigits_ne_nil
  split <;> simp [Printable]

theorem printFixed_neat (shown : ∀ c ∈ v, Printable c) (k n : ℕ) : Neat (v ++ printFixed k n) := by
  have int : Neat (v ++ Nat.toDigits 10 (n / 10 ^ k)) :=
    neat_digits shown (fun _ => isDigit_toDigits) Nat.toDigits_ne_nil
  unfold printFixed
  split
  · rwa [append_nil]
  · rw [append_cons, ← append_assoc, ← append_assoc]
    apply neat_digits _ (fun _ => leftpad_isDigit)
    · intro h
      exact Nat.toDigits_ne_nil (append_eq_nil_iff.mp h).2
    · intro c hc
      rcases mem_append.mp hc with left | right
      · exact int.shown c left
      · rw [mem_singleton.mp right]
        decide

theorem neat_putF (w k : ℕ) (q : ℚ) : Neat (putF w k q) := by
  rw [putF, printF, List.leftpad, ← append_assoc, ← cons_append]
  apply printFixed_neat
  intro c hc
  rcases mem_cons.mp hc with rfl | hc
  · decide
  · rcases mem_append.mp hc with fill | sign
    · rw [eq_of_mem_replicate fill]
      decide
    · split at sign
      · rw [mem_singleton.mp sign]
        decide
      · cases sign

def Shown (str : Text) : Prop := ∀ c ∈ str, Printable c

instance (str : Text) : Decidable (Shown str) := List.decidableBAll Printable str

theorem Shown.subNewLine (h : Shown str) : Shown (subNewLine str) :=
  fun c hc => h c (mem_of_mem_filter hc)

theorem neat_rawQStr (h : Shown str) : Neat (rawQStr str) := by
  apply Neat.concat _ (by decide) (by decide)
  intro c hc
  rcases mem_cons.mp hc with rfl | hc
  · decide
  · rcases mem_cons.mp hc with rfl | hc
    · decide
    · exact h c hc

theorem neat_addQStr (h : Shown str) : Neat (addQStr str) := by
  have doubled : Shown (doubleQuotes str) := by
    intro c hc
    obtain ⟨d, hd, hcd⟩ := mem_flatMap.mp hc
    split at hcd
    · simp only [mem_cons, not_mem_nil, or_false, or_self] at hcd
      rw [hcd]
      decide
    · rw [mem_singleton.mp hcd]
      exact h d hd
  exact neat_rawQStr doubled

theorem neat_addQStr_subNewLine (h : Shown str) : Neat (addQStr (subNewLine str)) :=
  neat_addQStr h.subNewLine

theorem neat_putIf {w : Text} (b : Bool) (h : Neat w) : Neat (putIf b w) := by
  unfold putIf
  split
  · exact h
  · exact Neat.nil

theorem neat_names {l : List Text} (h : ∀ x ∈ l, Shown x) : Neat (l.map addQStr).flatten := by
  apply Neat.flatten
  intro w hw
  obtain ⟨x, hx, rfl⟩ := mem_map.mp hw
  exact neat_addQStr (h x hx)

theorem neat_putNames {a : CArray Text} (h : ∀ x ∈ a.items, Shown x) : Neat (putNames a) :=
  (neat_putD _).append (neat_names h)

theorem neat_putXFiles {a : CArray XFile}
    (h : ∀ x ∈ a.items, Shown x.subFn ∧ Shown x.execFn) : Neat (putXFiles a) := by
  apply (neat_putD _).append
  apply Neat.flatten
  intro w hw
  obtain ⟨x, hx, rfl⟩ := mem_map.mp hw
  exact (neat_rawQStr (h x hx).1).append ((neat_rawQStr (h x hx).2).append (neat_putD _))

theorem neat_putLimits (l : RLimits) : Neat (putLimits l) := by
  apply Neat.flatten
  intro w hw
  obtain ⟨n, -, rfl⟩ := mem_map.mp hw
  exact neat_putD n

theorem neat_putBlockPort (options2 idx niosPort : Int32) :
    Neat (putBlockPort options2 idx niosPort) :=
  (neat_putD _).append ((neat_putD _).append (neat_putIf _ (neat_putD _)))

theorem neat_lsfRu2Str (r : LsfRusage) : Neat (lsfRu2Str r).flatten := by
  apply Neat.flatten
  simp [lsfRu2Str, neat_putF]

end Lines

section Texts

/-- The strings of a record. -/
def texts : EventLog → List Text
  | .jobNew r | .jobModify r =>
    [r.userName, r.hostSpec, r.queue, r.resReq, r.fromHost, r.cwd, r.chkpntDir, r.inFile,
      r.outFile, r.errFile, r.inFileSpool, r.commandSpool, r.jobSpoolDir, r.subHomeDir,
      r.jobFile, r.dependCond, r.jobName, r.command, r.preExecCmd, r.mailUser, r.projectName,
      r.schedHostType, r.loginShell] ++
    r.askedHosts.items ++ r.xf.items.map (·.subFn) ++ r.xf.items.map (·.execFn)
  | .jobModify2 r =>
    [r.jobIdStr, r.userName, r.jobName, r.queue, r.resReq, r.hostSpec, r.dependCond,
      r.subHomeDir, r.inFile, r.outFile, r.errFile, r.command, r.inFileSpool, r.commandSpool,
      r.chkpntDir, r.jobFile, r.fromHost, r.cwd, r.preExecCmd, r.mailUser, r.projectName,
      r.loginShell, r.schedHostType] ++
    r.askedHosts.items ++ r.xf.items.map (·.subFn) ++ r.xf.items.map (·.execFn)
  | .preExecStart r | .jobStart r => [r.queuePreCmd, r.queuePostCmd] ++ r.execHosts.items
  | .jobExecute r => [r.execHome, r.execCwd, r.execUsername]
  | .jobSwitch r => [r.queue, r.userName]
  | .jobMove r => [r.userName]
  | .queueCtrl r => [r.queue, r.userName]
  | .hostCtrl r => [r.host, r.userName]
  | .mbdStart r => [r.master, r.cluster]
  | .mbdDie r => [r.master]
  | .loadIndex r => r.name.items
  | .jobFinish r =>
    [r.userName, r.queue, r.resReq, r.fromHost, r.cwd, r.inFile, r.outFile, r.errFile,
      r.inFileSpool, r.commandSpool, r.jobFile, r.jobName, r.command, r.dependCond,
      r.preExecCmd, r.mailUser, r.projectName, r.loginShell] ++
    r.askedHosts.items ++ r.execHosts.items
  | .mig r => r.userName :: r.askedHosts.items
  | .jobSignal r => [r.signalSymbol, r.userName]
  | .jobMsg r | .jobMsgAck r => [r.src, r.dest, r.msg]
  | .jobSigact r => [r.signalSymbol]
  | .jobForce r => r.userName :: r.execHosts.items
  | .jobAttrSet r => [r.hostname]
  | .jobStartAccept _ | .jobStatus _ | .sbdJobStatus _ | .mbdUnfulfill _ | .chkpnt _
  | .jobRequeue _ | .jobClean _ | .logSwitch _ => []

theorem neat_lists {asked : CArray Text} {xf : CArray XFile} {l : List Text} (h : ∀ str ∈
    l ++ asked.items ++ xf.items.map (·.subFn) ++ xf.items.map (·.execFn), Shown str) :
    Neat (putNames asked) ∧ Neat (putXFiles xf) ∧ ∀ str ∈ l, Shown str := by
  simp only [forall_mem_append, forall_mem_map] at h
  exact ⟨neat_putNames h.1.1.2, neat_putXFiles fun x hx => ⟨h.1.2 x hx, h.2 x hx⟩, h.1.1.1⟩

theorem neat_jobNew {r : JobNewLog} (h : ∀ str ∈ texts (.jobNew r), Shown str) :
    Neat (writeJobNew r).flatten := by
  obtain ⟨hosts, xf, h⟩ := neat_lists h
  simp only [forall_mem_cons] at h
  apply Neat.flatten
  simp [writeJobNew, putTime, neat_putD, neat_putF, neat_addQStr, neat_putIf, hosts,
    xf, neat_putLimits, neat_putBlockPort, neat_addQStr_subNewLine, h]

theorem neat_jobMod {r : JobModLog} (h : ∀ str ∈ texts (.jobModify2 r), Shown str) :
    Neat (writeJobMod r).flatten := by
  obtain ⟨hosts, xf, h⟩ := neat_lists h
  simp only [forall_mem_cons] at h
  apply Neat.flatten
  simp [writeJobMod, neat_putD, neat_addQStr, neat_putIf, hosts, xf, neat_putLimits,
    neat_addQStr_subNewLine, h]

theorem neat_jobFinish {r : JobFinishLog} (h : ∀ str ∈ texts (.jobFinish r), Shown str) :
    Neat (writeJobFinish r).flatten := by
  simp only [texts, forall_mem_append, forall_mem_cons] at h
  have asked : Neat (putNames r.askedHosts) := neat_putNames h.1.2
  have exec : Neat (putNames r.execHosts) := neat_putNames h.2
  apply Neat.flatten
  simp [writeJobFinish, putTime, neat_putD, neat_putF, neat_addQStr, asked, exec, neat_lsfRu2Str, h]

theorem neat_jobStart {r : JobStartLog} (h : ∀ str ∈ texts (.jobStart r), Shown str) :
    Neat (writeJobStart r).flatten := by
  simp only [texts, forall_mem_append, forall_mem_cons] at h
  apply Neat.flatten
  simp [writeJobStart, neat_putD, neat_putF, neat_addQStr, neat_names h.2, h]

theorem neat_jobForce {r : JobForceRequestLog} (h : ∀ str ∈ texts (.jobForce r), Shown str) :
    Neat (writeJobForce r).flatten := by
  simp only [texts, forall_mem_cons] at h
  have count : Neat (putD r.execHosts.count ++ ([' '] ++ ((r.execHosts.items.map addQStr).flatten ++
      addQStr r.userName))) := by
    apply (neat_putD _).append
    have rest := (neat_names h.2).append (neat_addQStr h.1)
    refine ⟨?_, ?_⟩
    · intro c hc
      rcases mem_append.mp hc with blank | later
      · rw [mem_singleton.mp blank]
        decide
      · exact rest.shown c later
    · rw [List.getLast?_append]
      cases last : ((r.execHosts.items.map addQStr).flatten ++ addQStr r.userName).getLast? with
      | none => simp [addQStr] at last
      | some c =>
        intro blank
        cases blank
        exact rest.tight last
  have ints : Neat [putD r.jobId, putD r.userId, putD r.idx, putD r.options].flatten :=
    Neat.flatten (by simp [neat_putD])
  have all := ints.append count
  simpa [writeJobForce] using all

theorem neat_eventLog {e : EventLog} (h : ∀ str ∈ texts e, Shown str) :
    Neat (writeEventLog e).flatten := by
  cases e with
  | jobNew r => exact neat_jobNew h
  | jobModify r => exact neat_jobNew h
  | jobModify2 r => exact neat_jobMod h
  | jobFinish r => exact neat_jobFinish h
  | jobStart r => exact neat_jobStart h
  | preExecStart r => exact neat_jobStart h
  | jobForce r => exact neat_jobForce h
  | mig r =>
    simp only [texts, forall_mem_cons] at h
    apply Neat.flatten
    simp [writeEventLog, writeMig, neat_putD, neat_addQStr, neat_putNames h.2, h]
  | loadIndex r =>
    have names : Neat (r.name.items.map addQStr).flatten := neat_names h
    apply Neat.flatten
    simp [writeEventLog, writeLoadIndex, neat_putD, names]
  | jobExecute r | jobSwitch r | jobMove r | queueCtrl r | hostCtrl r | mbdStart r | mbdDie r
  | jobSignal r | jobMsg r | jobMsgAck r | jobSigact r =>
    simp only [texts, forall_mem_cons] at h
    apply Neat.flatten
    simp [writeEventLog, writeJobExecute, writeJobSwitch, writeJobMove, writeQueueCtrl,
      writeHostCtrl, writeMbdStart, writeMbdDie, writeJobSignal, writeJobMsg, writeJobSigAct,
      putTime, neat_putD, neat_addQStr, h]
  | jobStatus r =>
    apply Neat.flatten
    simp [writeEventLog, writeJobStatus, putTime, neat_putD, neat_putF, neat_putIf, neat_lsfRu2Str]
  | jobStartAccept r | sbdJobStatus r | mbdUnfulfill r | chkpnt r | jobRequeue r | jobClean r
  | logSwitch r | jobAttrSet r =>
    apply Neat.flatten
    simp [writeEventLog, writeJobStartAccept, writeSbdJobStatus, writeUnfulfill, writeChkpnt,
      writeJobIdx, writeLogSwitch, writeJobAttrSet, putTime, neat_putD]

end Texts

end LogLine
