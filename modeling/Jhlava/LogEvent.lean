import Jhlava.LogLine

/-! One event: the head of its line, and the line as a whole. A record whose
strings are printable and whose file names have no quote is written on one
line that is read back as what the log keeps of it, or rejected. -/
namespace LogEvent
open TextScan CFormat LogWords LogRecord LogWrite LogRead LogRoundTrip LogKept LogLine List

section Head

/-- The strings at the head of a line must have something behind them. -/
theorem head {α : Type} {f : Text → LogReader α} {ws : List Text} {c : Prop} {a : α} {str : Text}
    (maxLen : ℕ) (plain : '"' ∉ str) (more : ws.flatten ≠ [])
    (next : Reads At At (f str) ws.flatten c a) :
    Reads At At (headStr maxLen >>= f) (rawQStr str :: ws).flatten (str.length < maxLen ∧ c) a := by
  have stripped : ∀ t x, Sep t → At x ((rawQStr str :: ws).flatten ++ t) →
      stripQStr x = some (str, ws.flatten ++ t) := by
    intro t x sep start
    rw [flatten_cons, append_assoc] at start
    exact (quotes_rawQStr plain).stripQStr (sep_append next.field sep) (start.before '"')
  have some_text : ∀ t, ws.flatten ++ t ≠ [] := by
    intro t h
    exact more (append_eq_nil_iff.mp h).1
  have found : ∀ t x, Sep t → At x ((rawQStr str :: ws).flatten ++ t) → str.length < maxLen →
      headStr maxLen x = .ok (str, (ws.flatten ++ t).drop 1) := by
    intro t x sep start short
    simp only [headStr, stripped t x sep start]
    rw [if_neg (by simp [some_text t, short])]
  refine { field := Or.inr ⟨_, rfl⟩, reads := ?_, rejects := ?_ }
  · rintro ⟨short, hc⟩ t x sep start
    obtain ⟨y, stop, read⟩ := next.reads hc t ((ws.flatten ++ t).drop 1) sep (Or.inr rfl)
    refine ⟨y, stop, ?_⟩
    show (headStr maxLen x >>= fun ay => f ay.1 ay.2) = _
    rw [found t x sep start short]
    exact read
  · intro hcc t x sep start
    show (headStr maxLen x >>= fun ay => f ay.1 ay.2) = _
    by_cases short : str.length < maxLen
    · rw [found t x sep start short]
      exact next.rejects (fun hc => hcc ⟨short, hc⟩) t ((ws.flatten ++ t).drop 1) sep (Or.inr rfl)
    · have long : headStr maxLen x = .error .eventFormat := by
        simp only [headStr, stripped t x sep start]
        rw [if_pos (Or.inr (Nat.not_lt.mp short))]
      rw [long]
      rfl

theorem getEventType_etype (type : EventType) : getEventType (etype type).toList = some type := by
  cases type <;> rfl

theorem etype_short (type : EventType) : (etype type).toList.length < maxLsbNameLen := by
  cases type <;> decide

theorem etype_plain (type : EventType) : '"' ∉ (etype type).toList := by
  cases type <;> decide

end Head

section Event

variable (fl : FloatFormat)

def logged (r : EventRec) : EventRec where
  version := r.version
  eventTime := asTime r.eventTime
  eventLog := EventLog.logged fl (asTime r.eventTime) r.eventLog

def Readable (r : EventRec) : Prop :=
  r.version.length < maxVersionLen ∧ 0 < fl.single (fl.double (atof r.version)) ∧
    EventLog.Readable r.eventLog

def Plain (r : EventRec) : Prop := '"' ∉ r.version ∧ EventLog.Plain r.eventLog

variable {r : EventRec}

theorem event (plain : Plain r) :
    Reads At At (readEvent fl) (fields r).flatten (Readable fl r) (logged fl r) := by
  have log := (eventLog fl (asTime r.eventTime) plain.2).map
    fun eventLog => (⟨r.version, asTime r.eventTime, eventLog⟩ : EventRec)
  refine Reads.congr (head _ (etype_plain _) (by simp [rawQStr]) <|
    head _ plain.1 (by simp [putTime, putD]) <|
    (Reads.check _).skip <| (intStep _).andThen (c := EventLog.Readable r.eventLog) ?_)
    (by simp [Readable, etype_short])
  rw [getEventType_etype]
  exact log

def line (r : EventRec) : Text := (fields r).flatten.drop 1

theorem lsbPuteventrec_eq (r : EventRec) : lsbPuteventrec r = line r ++ lineEnd r.eventLog.type :=
  rfl

def PrintableRec (r : EventRec) : Prop := Shown r.version ∧ ∀ str ∈ texts r.eventLog, Shown str

theorem etype_shown (type : EventType) : Shown (etype type).toList := by
  cases type <;> decide

theorem line_head (r : EventRec) : (line r).head? ≠ some '#' := by
  simp [line, fields, rawQStr]

theorem lineEnd_of_ne {type : EventType} (h : type ≠ .sbdJobStatus) :
    ∃ pad, (∀ c ∈ pad, c = ' ') ∧ lineEnd type = pad ++ ['\n'] := by
  unfold lineEnd
  split
  · exact absurd rfl h
  · exact ⟨[' '], by simp, rfl⟩
  · exact ⟨[' '], by simp, rfl⟩
  · exact ⟨[], by simp, rfl⟩

theorem nextEventLine_of_line {x fp rest : Text} (next : getNextLine fp = (some x, rest))
    (head : x.head? ≠ some '#') : nextEventLine fp = (some x, rest) := by
  rw [nextEventLine]
  split
  · rename_i eq
    rw [next] at eq
    cases eq
  · rename_i eq
    rw [next] at eq
    cases eq
    rw [if_neg head]

section

variable (h : PrintableRec r)
include h

theorem neat_fields : Neat (fields r).flatten := by
  have log := neat_eventLog h.2
  exact (neat_rawQStr (etype_shown _)).append <| (neat_rawQStr h.1).append <|
    (neat_putD _).append log

theorem isLine_line : IsLine (line r) := by
  have neat := neat_fields h
  have shape : (fields r).flatten = ' ' :: line r := rfl
  have front : line r = '"' :: ((etype r.eventLog.type).toList ++ ['"'] ++
      (rawQStr r.version :: putTime r.eventTime :: writeEventLog r.eventLog).flatten) := by
    simp [line, fields, rawQStr]
  rw [shape] at neat
  refine ⟨fun c hc => neat.shown c (mem_cons_of_mem _ hc), ⟨_, _, front, by simp, by decide⟩, ?_⟩
  have last := neat.tight
  rwa [List.getLast?_cons_of_ne_nil (by rw [front]; simp)] at last

theorem nextEventLine_put (ends : r.eventLog.type ≠ .sbdJobStatus) (rest : Text) :
    nextEventLine (lsbPuteventrec r ++ rest) = (some (line r), rest) := by
  obtain ⟨pad, blanks, shape⟩ := lineEnd_of_ne ends
  have next := getNextLine_line (isLine_line h) blanks rest
  rw [lsbPuteventrec_eq, shape, append_assoc, append_assoc, ← append_assoc]
  exact nextEventLine_of_line next (line_head r)

theorem nextEventLine_last : nextEventLine (lsbPuteventrec r) = (some (line r), []) := by
  by_cases ends : r.eventLog.type = .sbdJobStatus
  · rw [lsbPuteventrec_eq, ends, lineEnd, append_nil]
    exact nextEventLine_of_line (getNextLine_end (isLine_line h)) (line_head r)
  · have found := nextEventLine_put h ends []
    rwa [append_nil] at found

end

def Outcome (r : EventRec) (got : Got) : Prop :=
  (Readable fl r ∧ got = .record (logged fl r)) ∨ (¬Readable fl r ∧ got = .failed .eventFormat)

theorem lsbGeteventrecEx_of_line (plain : Plain r) {fp rest : Text}
    (next : nextEventLine fp = (some (line r), rest)) :
    ∃ got, Outcome fl r got ∧ lsbGeteventrecEx fl fp = (got, rest) := by
  have start : At (line r) ((fields r).flatten ++ []) := by
    rw [append_nil]
    exact Or.inr rfl
  unfold lsbGeteventrecEx
  rw [next]
  by_cases readable : Readable fl r
  · obtain ⟨y, -, read⟩ := (event fl plain).reads readable [] (line r) sep_nil start
    exact ⟨_, Or.inl ⟨readable, rfl⟩, by simp only [read]⟩
  · have fail := (event fl plain).rejects readable [] (line r) sep_nil start
    exact ⟨_, Or.inr ⟨readable, rfl⟩, by simp only [fail]; rfl⟩

/-- A record of printable strings, with no quote in a file name or version and no
string that overruns an array, is read from its line as the log keeps it when it
is readable, and rejected otherwise. -/
theorem lsbGeteventrecEx_lsbPuteventrec (r : EventRec) (printable : PrintableRec r)
    (plain : Plain r) :
    (Readable fl r → lsbGeteventrecEx fl (lsbPuteventrec r) = (.record (logged fl r), [])) ∧
    (¬Readable fl r → lsbGeteventrecEx fl (lsbPuteventrec r) = (.failed .eventFormat, [])) := by
  obtain ⟨got, outcome, read⟩ :=
    lsbGeteventrecEx_of_line fl plain (nextEventLine_last printable)
  rw [read]
  rcases outcome with ⟨readable, rfl⟩ | ⟨unreadable, rfl⟩
  · exact ⟨fun _ => rfl, fun h => absurd readable h⟩
  · exact ⟨fun h => absurd h unreadable, fun _ => rfl⟩

end Event

def exactFormat : FloatFormat := ⟨id, id⟩

def quotedSwitch : EventRec :=
  ⟨"10".toList, 1700000000, .jobSwitch ⟨500, 7, "late \"night\" ".toList, 0, "ann".toList⟩⟩

theorem lsbGeteventrecEx_lsbPuteventrec_quotedSwitch :
    PrintableRec quotedSwitch ∧ Plain quotedSwitch ∧ Readable exactFormat quotedSwitch ∧
    lsbGeteventrecEx exactFormat (lsbPuteventrec quotedSwitch) =
      (.record (logged exactFormat quotedSwitch), []) := by
  have printable : PrintableRec quotedSwitch := ⟨by decide +kernel, by decide +kernel⟩
  have plain : Plain quotedSwitch := ⟨by decide, trivial⟩
  have readable : Readable exactFormat quotedSwitch := by
    refine ⟨by decide, by decide +kernel, ?_⟩
    show Fits _ _ _ ∧ Fits _ _ _
    decide
  exact ⟨printable, plain, readable,
    (lsbGeteventrecEx_lsbPuteventrec exactFormat quotedSwitch printable plain).1 readable⟩

def namelessSwitch : EventRec :=
  ⟨"10".toList, 1700000000, .jobSwitch ⟨500, 7, "night".toList, 0, []⟩⟩

/-- A job that brings the file `a"b` along. -/
def quotedTransfer : EventRec where
  version := "10".toList
  eventTime := 1700000000
  eventLog := .jobNew
    { jobId := 7, userId := 500, userName := "ann".toList, options := 0, options2 := 0,
      numProcessors := 1, submitTime := 1700000000, beginTime := 0, termTime := 0, sigValue := 0,
      chkpntPeriod := 0, restartPid := 0, rLimits := noLimits, hostSpec := [], hostFactor := 1,
      umask := 18, queue := "night".toList, resReq := [], fromHost := "h1".toList, cwd := [],
      chkpntDir := [], inFile := [], outFile := [], errFile := [], inFileSpool := [],
      commandSpool := [], jobSpoolDir := [], subHomeDir := [], jobFile := "1700.7".toList,
      askedHosts := .empty, dependCond := [], jobName := [], command := "sleep".toList,
      xf := ⟨[⟨"a\"b".toList, "c".toList, 1⟩], by decide⟩, preExecCmd := [], mailUser := [],
      projectName := [], niosPort := 0, maxNumProcessors := 1, schedHostType := [],
      loginShell := [], idx := 0, userPriority := -1 }

/-- A required string that is empty is rejected, and the text of a quoted file
name is taken apart at the quote. -/
theorem switch_and_transfer_lost :
    lsbGeteventrecEx exactFormat (lsbPuteventrec namelessSwitch) = (.failed .eventFormat, []) ∧
    logged exactFormat quotedTransfer = quotedTransfer ∧
    (lsbGeteventrecEx exactFormat (lsbPuteventrec quotedTransfer)).1 ≠ .record quotedTransfer := by
  decide +kernel

end LogEvent
