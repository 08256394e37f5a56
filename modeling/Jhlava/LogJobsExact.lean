import Jhlava.LogFile
import Jhlava.LogJobs

/-! The job id that is read off a line is the job id of its record, so the calls return the
records that are asked for; in the messages of a job the user id stands in its place. -/
namespace LogJobs
open TextScan CFormat LogWords LogRecord LogRead LogEvent LogFile List
open Jhlava.JobIndex (lsbArrayJobid)

/-! ### The front of a line -/

variable {fl : FloatFormat} {fp line rest s x y : Text} {jobIds : List Int64} {maxLen : ℕ}
  {r : EventRec} {type : EventType} {α : Type}

theorem saveQStr_eq_ok :
    saveQStr x = .ok (s, y) ↔ ∃ rest, stripQStr x = some (s, rest) ∧ y = rest.drop 1 := by
  have strip_eq : ∀ {s rest : Text}, strip x = .ok (s, rest) ↔ stripQStr x = some (s, rest) := by
    unfold strip
    split <;> simp_all
  simp only [saveQStr, step, bind_eq_ok, pure_eq_ok, strip_eq]
  constructor
  · rintro ⟨_, rest, read, _, _, moved, rfl, rfl⟩
    cases moved
    exact ⟨rest, read, rfl⟩
  · rintro ⟨rest, read, rfl⟩
    exact ⟨s, rest, read, (), _, rfl, rfl, rfl⟩

theorem copyQStr_eq_ok :
    copyQStr maxLen false x = .ok (s, y) ↔
      ∃ rest, stripQStr x = some (s, rest) ∧ s.length < maxLen ∧ y = rest.drop 1 := by
  simp only [copyQStr, bind_eq_ok, pure_eq_ok, reject_eq_ok, saveQStr_eq_ok]
  constructor
  · rintro ⟨s, y, ⟨rest, read, rfl⟩, _, _, ⟨fits, rfl⟩, rfl, rfl⟩
    refine ⟨rest, read, ?_, rfl⟩
    simpa using fits
  · rintro ⟨rest, read, fits, rfl⟩
    exact ⟨s, _, ⟨rest, read, rfl⟩, (), _, ⟨by simpa using fits, rfl⟩, rfl, rfl⟩

theorem bufQStr_eq_ok {size : ℕ} :
    bufQStr size x = .ok (s, y) ↔
      ∃ rest, stripQStr x = some (s, rest) ∧ s.length < size ∧ y = rest.drop 1 := by
  unfold bufQStr
  cases stripQStr x with
  | none => split_ifs <;> simp
  | some found => grind

theorem nameBufQStr_eq_ok (small : maxLen ≤ maxLineLen) :
    nameBufQStr maxLen x = .ok (s, y) ↔ copyQStr maxLen false x = .ok (s, y) := by
  rw [copyQStr_eq_ok]
  simp only [nameBufQStr, bind_eq_ok, pure_eq_ok, reject_eq_ok, bufQStr_eq_ok]
  constructor
  · rintro ⟨s, y, ⟨rest, read, -, rfl⟩, _, _, ⟨fits, rfl⟩, rfl, rfl⟩
    exact ⟨rest, read, not_le.mp fits, rfl⟩
  · rintro ⟨rest, read, fits, rfl⟩
    exact ⟨s, _, ⟨rest, read, fits.trans_le small, rfl⟩, (), _, ⟨not_le.mpr fits, rfl⟩, rfl, rfl⟩

theorem headStr_eq_ok (more : y ≠ []) :
    headStr maxLen x = .ok (s, y) ↔ copyQStr maxLen false x = .ok (s, y) := by
  rw [copyQStr_eq_ok]
  unfold headStr
  cases read : stripQStr x with
  | none => simp
  | some found =>
    obtain ⟨s', rest⟩ := found
    by_cases stop : rest = [] ∨ maxLen ≤ s'.length
    · simp only [if_pos stop, reduceCtorEq, false_iff]
      rintro ⟨rest', same, fits, rfl⟩
      cases same
      rcases stop with rfl | long
      · exact more rfl
      · omega
    · rw [not_or, not_le] at stop
      simp only [stop.1, not_le.mpr stop.2, or_self, if_false, Except.ok.injEq, Prod.mk.injEq]
      constructor
      · rintro ⟨rfl, rfl⟩
        exact ⟨rest, rfl, stop.2, rfl⟩
      · rintro ⟨rest', same, fits, rfl⟩
        cases same
        exact ⟨rfl, rfl⟩

theorem ne_nil_of_copyQStr (read : copyQStr maxLen false x = .ok (s, y)) : x ≠ [] := by
  rintro rfl
  obtain ⟨rest, none, -⟩ := copyQStr_eq_ok.mp read
  cases none

theorem ne_nil_of_scanIntStep {n : Int32} (read : scanIntStep x = .ok (n, y)) :
    x ≠ [] := by
  rintro rfl
  cases read

/-- The line starts with the name of the event, the version and the time; `fields` is behind. -/
def Starts (fl : FloatFormat) (line : Text) (type : EventType) (version : Text)
    (time : Int32) (fields : Text) : Prop :=
  ∃ etype x y, copyQStr maxLsbNameLen false line = .ok (etype, x) ∧
    getEventType etype = some type ∧ copyQStr maxVersionLen false x = .ok (version, y) ∧
    ¬fl.single (fl.double (atof version)) ≤ 0 ∧ scanIntStep y = .ok (time, fields)

theorem readEvent_eq_ok :
    readEvent fl line = .ok (r, rest) ↔ ∃ type time fields,
      Starts fl line type r.version time fields ∧ r.eventTime = time.toInt64 ∧
      readEventRecord fl time.toInt64 type fields = .ok (r.eventLog, rest) := by
  simp only [readEvent, bind_eq_ok, reject_eq_ok]
  constructor
  · rintro ⟨etype, x, named, version, y, numbered, _, _, ⟨newer, rfl⟩, time, fields, timed, h⟩
    rw [headStr_eq_ok (ne_nil_of_scanIntStep timed)] at numbered
    rw [headStr_eq_ok (ne_nil_of_copyQStr numbered)] at named
    cases known : getEventType etype with
    | none =>
      rw [known] at h
      cases h
    | some type =>
      rw [known] at h
      obtain ⟨log, _, read, done⟩ := bind_eq_ok.mp h
      cases done
      exact ⟨type, time, fields, ⟨etype, x, y, named, known, numbered, newer, timed⟩, rfl, read⟩
  · rintro ⟨type, time, fields, ⟨etype, x, y, named, known, numbered, newer, timed⟩, stamp, read⟩
    refine ⟨etype, x, (headStr_eq_ok (ne_nil_of_copyQStr numbered)).mpr named, r.version, y,
      (headStr_eq_ok (ne_nil_of_scanIntStep timed)).mpr numbered, (), y, ⟨newer, rfl⟩,
      time, fields, timed, ?_⟩
    rw [known]
    refine bind_eq_ok.mpr ⟨r.eventLog, rest, read, ?_⟩
    rw [← stamp]
    rfl

theorem readJobEvent_eq_ok :
    readJobEvent fl jobIds line = .ok (some r, rest) ↔
      ∃ type time fields, Starts fl line type r.version time fields ∧
        jobRelated type ∧ checkJobEventAndJobId fields type jobIds ∧
        r.eventTime = time.toInt64 ∧
        readEventRecord fl time.toInt64 type fields = .ok (r.eventLog, rest) := by
  simp only [readJobEvent, bind_eq_ok,
    nameBufQStr_eq_ok (show maxLsbNameLen ≤ maxLineLen by decide)]
  have short : maxVersionLen ≤ maxLineLen := by decide
  constructor
  · rintro ⟨etype, x, named, h⟩
    cases known : getEventType etype with
    | none =>
      rw [known] at h
      cases h
    | some type =>
      rw [known] at h
      by_cases related : jobRelated type
      · simp only [related, if_true, bind_eq_ok, reject_eq_ok, nameBufQStr_eq_ok short] at h
        obtain ⟨version, y, numbered, _, _, ⟨newer, rfl⟩, time, fields, timed, _, _, got, h⟩ := h
        cases got
        by_cases checked : checkJobEventAndJobId fields type jobIds
        · rw [if_pos checked] at h
          obtain ⟨log, _, read, done⟩ := bind_eq_ok.mp h
          cases done
          exact ⟨type, time, _, ⟨etype, x, y, named, known, numbered, newer, timed⟩, related,
            checked, rfl, read⟩
        · rw [if_neg checked] at h
          cases h
      · simp only [related, if_false, Bool.false_eq_true] at h
        cases h
  · rintro ⟨type, time, fields, ⟨etype, x, y, named, known, numbered, newer, timed⟩, related,
      checked, stamp, read⟩
    refine ⟨etype, x, named, ?_⟩
    rw [known]
    simp only [related, if_true, bind_eq_ok, reject_eq_ok, nameBufQStr_eq_ok short]
    refine ⟨r.version, y, numbered, (), y, ⟨newer, rfl⟩, time, fields, timed, fields, fields,
      rfl, ?_⟩
    rw [if_pos checked]
    refine bind_eq_ok.mpr ⟨r.eventLog, rest, read, ?_⟩
    rw [← stamp]
    rfl

/-! ### The job id -/

/-- The job id of a record. A modification keeps it at the front of its id string. -/
def jobIdOf : EventLog → Option Int32
  | .jobNew r => some r.jobId
  | .jobStart r => some r.jobId
  | .jobStatus r => some r.jobId
  | .jobSwitch r => some r.jobId
  | .jobMove r => some r.jobId
  | .jobFinish r => some r.jobId
  | .chkpnt r => some r.jobId
  | .mig r => some r.jobId
  | .preExecStart r => some r.jobId
  | .jobModify r => some r.jobId
  | .jobSignal r => some r.jobId
  | .jobExecute r => some r.jobId
  | .jobMsg r => some r.jobId
  | .jobMsgAck r => some r.jobId
  | .jobRequeue r => some r.jobId
  | .jobSigact r => some r.jobId
  | .sbdJobStatus r => some r.jobId
  | .jobStartAccept r => some r.jobId
  | .jobClean r => some r.jobId
  | .jobForce r => some r.jobId
  | .jobModify2 r => (scanD r.jobIdStr).map Prod.fst
  | .jobAttrSet r => some r.jobId
  | .mbdUnfulfill r => some r.jobId
  | .queueCtrl _ | .hostCtrl _ | .mbdDie _ | .loadIndex _ | .mbdStart _ | .logSwitch _ => none

def isMessage : EventType → Bool
  | .jobMsg | .jobMsgAck => true
  | _ => false

theorem readEventRecord_type {time : Int64} {log : EventLog}
    (read : readEventRecord fl time type x = .ok (log, y)) : log.type = type := by
  cases type
  all_goals
    obtain ⟨r, z, -, done⟩ := bind_eq_ok.mp read
    cases done
    rfl

theorem scanInt_eq_ok {n : Int32} :
    scanInt x = .ok (n, y) ↔ scanD x = some (n, y) := by
  unfold scanInt
  cases scanD x <;> simp

theorem first_of_read {β : Type} {first : LogReader β} {f : β → LogReader α} {id : α → β} {a : α}
    (keeps : ∀ b, Yields (f b) fun a => id a = b) (read : (first >>= f) x = .ok (a, y)) :
    ∃ z, first x = .ok (id a, z) := by
  obtain ⟨b, z, start, next⟩ := bind_eq_ok.mp read
  rw [keeps b z a y next]
  exact ⟨z, start⟩

variable {f : Int32 → LogReader α}

theorem scanD_of_scanInt {id : α → Int32} {a : α} (keeps : ∀ n, Yields (f n) fun a => id a = n)
    (read : (scanInt >>= f) x = .ok (a, y)) : (scanD x).map Prod.fst = some (id a) := by
  obtain ⟨z, scanned⟩ := first_of_read keeps read
  rw [scanInt_eq_ok.mp scanned]
  rfl

theorem scanD_of_scanIntStep {id : α → Int32} {a : α}
    (keeps : ∀ n, Yields (f n) fun a => id a = n) (read : (scanIntStep >>= f) x = .ok (a, y)) :
    (scanD x).map Prod.fst = some (id a) := by
  obtain ⟨z, scanned⟩ := first_of_read keeps read
  obtain ⟨n, w, inner, stepped⟩ := bind_eq_ok.mp scanned
  cases stepped
  rw [scanInt_eq_ok.mp inner]
  rfl

theorem scanJobId_of_read {time : Int64} {log : EventLog} (related : jobRelated type)
    (noMessage : isMessage type = false) (noModify : type ≠ .jobModify2)
    (read : readEventRecord fl time type x = .ok (log, y)) :
    scanJobId type x = jobIdOf log := by
  cases type
  case jobModify2 => exact absurd rfl noModify
  case jobMsg | jobMsgAck => cases noMessage
  case queueCtrl | hostCtrl | mbdDie | mbdUnfulfill | loadIndex | mbdStart | logSwitch =>
      cases related
  all_goals
    obtain ⟨r, z, fields, done⟩ := bind_eq_ok.mp read
    cases done
  case jobSwitch =>
      obtain ⟨userId, x', first, fields⟩ := bind_eq_ok.mp fields
      rw [scanJobId, scanInt_eq_ok.mp first]
      refine scanD_of_scanIntStep (fun n => ?_) fields
      repeat (refine Yields.bind fun _ => ?_)
      exact Yields.pure rfl
  case jobMove =>
      obtain ⟨userId, x', first, fields⟩ := bind_eq_ok.mp fields
      rw [scanJobId, scanInt_eq_ok.mp first]
      refine scanD_of_scanInt (fun n => ?_) fields
      repeat (refine Yields.bind fun _ => ?_)
      exact Yields.pure rfl
  case jobRequeue =>
      refine scanD_of_scanIntStep (fun n => ?_) fields
      exact Yields.bind fun _ => Yields.pure rfl
  -- the other readers start with the job id
  all_goals
    refine scanD_of_scanInt (fun n => ?_) fields
    repeat (refine Yields.bind fun _ => ?_)
    exact Yields.pure rfl

/-! ### The id string of a modification -/

theorem scanD_quote {u v : Text} (quote : ∀ c ∈ v.head?, c = '"') :
    (scanD (u ++ v)).map Prod.fst = (scanD u).map Prod.fst := by
  have ends : ∀ c ∈ v.head?, EndsNumber c := by
    intro c hc
    rw [quote c hc]
    exact ⟨rfl, by decide, by decide, rfl⟩
  rw [scanD_append ends, Option.map_map]
  rfl

theorem unquote_front {q str : Text} (read : unquote q = some (str, rest)) :
    ∃ u v w, q = u ++ v ∧ str = u ++ w ∧ (∀ c ∈ v.head?, c = '"') ∧ ∀ c ∈ w.head?, c = '"' := by
  induction q using unquote.induct generalizing str with
  | case1 => cases read
  | case2 q ih =>
    refine ⟨[], _, _, rfl, rfl, by simp, ?_⟩
    obtain ⟨found, -, eq⟩ := Option.map_eq_some_iff.mp read
    cases eq
    simp
  | case3 q next =>
    rw [unquote.eq_3 _ next] at read
    cases read
    exact ⟨[], _, [], rfl, rfl, by simp, by simp⟩
  | case4 c q h h' ih =>
    rw [unquote.eq_4 _ _ h h'] at read
    obtain ⟨found, inner, eq⟩ := Option.map_eq_some_iff.mp read
    cases eq
    obtain ⟨u, v, w, rfl, same, hv, hw⟩ := ih inner
    refine ⟨c :: u, v, w, rfl, ?_, hv, hw⟩
    rw [cons_append, ← same]

theorem scanD_unquote {q str : Text} (read : unquote q = some (str, rest)) :
    (scanD q).map Prod.fst = (scanD str).map Prod.fst := by
  obtain ⟨u, v, w, rfl, rfl, hv, hw⟩ := unquote_front read
  rw [scanD_quote hv, scanD_quote hw]

def idInPlace (fields : Text) : Bool := fields.head? == some '"'

theorem scanJobId_of_readJobMod {r : JobModLog} (place : idInPlace x)
    (read : readJobMod x = .ok (r, y)) :
    scanJobId .jobModify2 x = (scanD r.jobIdStr).map Prod.fst := by
  have keeps : ∃ z, saveQStr x = .ok (r.jobIdStr, z) := by
    refine first_of_read (fun str => ?_) read
    repeat (refine Yields.bind fun _ => ?_)
    exact Yields.pure rfl
  obtain ⟨z, saved⟩ := keeps
  obtain ⟨rest, stripped, -⟩ := saveQStr_eq_ok.mp saved
  cases x with
  | nil => cases place
  | cons c q =>
    have quote : c = '"' := by simpa [idInPlace] using place
    subst quote
    exact scanD_unquote stripped

theorem scanJobId_of_displaced (displaced : idInPlace x = false) :
    scanJobId .jobModify2 x = none := by
  cases x with
  | nil => rfl
  | cons c q =>
    have other : c ≠ '"' := by simpa [idInPlace] using displaced
    simp [scanJobId, other]

/-! ### The records of a file -/

def eventLines (fp : Text) : List Text :=
  match _h : nextEventLine fp with
  | (none, _) => []
  | (some line, rest) => line :: eventLines rest
termination_by lineCount fp
decreasing_by exact nextEventLine_rest _h

theorem eventLines_end (last : nextEventLine fp = (none, rest)) : eventLines fp = [] := by
  rw [eventLines]
  split
  · rfl
  · rename_i next
    rw [last] at next
    cases next

theorem eventLines_line (next : nextEventLine fp = (some line, rest)) :
    eventLines fp = line :: eventLines rest := by
  rw [eventLines]
  split
  · rename_i last
    rw [next] at last
    cases last
  · rename_i next'
    rw [next] at next'
    cases next'
    rfl

/-- No string of the line overruns an array of either reader. -/
def Intact (fl : FloatFormat) (jobIds : List Int64) (line : Text) : Prop :=
  readEvent fl line ≠ .error .overrun ∧ readJobEvent fl jobIds line ≠ .error .overrun

theorem got_of_ne {f : Fault} (ne : f ≠ .overrun) : f.got = .failed f := by
  cases f with
  | overrun => exact absurd rfl ne
  | eventFormat => rfl
  | unknownEvent => rfl

/-- The record that `lsb_geteventrec` finds on a line. -/
def recordOf (fl : FloatFormat) (line : Text) : Option EventRec :=
  (readEvent fl line).toOption.map Prod.fst

/-- The records of a file as `lsb_geteventrec` gives them, each with its line. -/
def eventRecords (fl : FloatFormat) (fp : Text) : List (Text × EventRec) :=
  (eventLines fp).filterMap fun line => (recordOf fl line).map (line, ·)

def fieldsOf (line : Text) : Option Text :=
  (((copyQStr maxLsbNameLen false >>= fun _ => copyQStr maxVersionLen false >>= fun _ =>
    scanIntStep) : LogReader Int32) line).toOption.map Prod.snd

def requested (jobIds : List Int64) (line : Text) (r : EventRec) : Bool :=
  jobRelated r.eventLog.type &&
    (jobIds.isEmpty || r.eventLog.type == .jobNew ||
      (jobIdOf r.eventLog).all (fun jobId => jobIds.any (lsbArrayJobid · == jobId)) ||
      (r.eventLog.type == .jobModify2 && !(fieldsOf line).any idInPlace))

def quickRecordOf (fl : FloatFormat) (jobIds : List Int64) (line : Text) : Option EventRec :=
  (readJobEvent fl jobIds line).toOption.bind Prod.fst

theorem recordOf_eq_some :
    recordOf fl line = some r ↔ ∃ rest, readEvent fl line = .ok (r, rest) := by
  unfold recordOf
  cases readEvent fl line with
  | error e => simp [Except.toOption]
  | ok read =>
    obtain ⟨r', rest⟩ := read
    simp [Except.toOption]

theorem quickRecordOf_eq_some :
    quickRecordOf fl jobIds line = some r ↔
      ∃ rest, readJobEvent fl jobIds line = .ok (some r, rest) := by
  unfold quickRecordOf
  cases readJobEvent fl jobIds line with
  | error e => simp [Except.toOption]
  | ok read =>
    obtain ⟨r', rest⟩ := read
    simp [Except.toOption]

theorem Starts.fieldsOf {version fields : Text} {time : Int32}
    (starts : Starts fl line type version time fields) :
    fieldsOf line = some fields := by
  obtain ⟨etype, x, y, named, -, numbered, -, timed⟩ := starts
  have read : ((copyQStr maxLsbNameLen false >>= fun _ => copyQStr maxVersionLen false >>= fun _ =>
      scanIntStep) : LogReader Int32) line = .ok (time, fields) :=
    bind_eq_ok.mpr ⟨etype, x, named, bind_eq_ok.mpr ⟨version, y, numbered, timed⟩⟩
  rw [LogJobs.fieldsOf, read]
  rfl

theorem check_eq_requested {fields : Text} {time : Int32}
    (starts : Starts fl line type r.version time fields)
    (read : readEventRecord fl time.toInt64 type fields = .ok (r.eventLog, rest))
    (noMessage : isMessage r.eventLog.type = false) :
    (jobRelated type && checkJobEventAndJobId fields type jobIds) = requested jobIds line r := by
  have typed := readEventRecord_type read
  rw [typed] at noMessage
  cases related : jobRelated type with
  | false => simp [requested, typed, related]
  | true =>
    have check : checkJobEventAndJobId fields type jobIds =
        (jobIds.isEmpty || type == .jobNew || (scanJobId type fields).all fun jobId =>
          jobIds.any (lsbArrayJobid · == jobId)) := by
      unfold checkJobEventAndJobId
      cases scanJobId type fields <;> simp
    have place : (!(LogJobs.fieldsOf line).any idInPlace) = !idInPlace fields := by
      rw [starts.fieldsOf]
      rfl
    rw [requested, typed, related, place, check]
    by_cases modify : type = .jobModify2
    · subst modify
      obtain ⟨m, z, fields', done⟩ := bind_eq_ok.mp read
      have kept : EventLog.jobModify2 m = r.eventLog := (pure_eq_ok.mp done).1
      cases put : idInPlace fields with
      | true =>
        rw [scanJobId_of_readJobMod put fields', ← kept]
        simp [jobIdOf]
      | false =>
        rw [scanJobId_of_displaced put]
        simp
    · rw [scanJobId_of_read related noMessage modify read]
      simp [modify]

theorem quickRecordOf_iff (noMessage : isMessage r.eventLog.type = false) :
    quickRecordOf fl jobIds line = some r ↔
      recordOf fl line = some r ∧ requested jobIds line r = true := by
  simp only [quickRecordOf_eq_some, recordOf_eq_some, readJobEvent_eq_ok, readEvent_eq_ok]
  constructor
  · rintro ⟨rest, type, time, fields, starts, related, checked, stamp, read⟩
    refine ⟨⟨rest, type, time, fields, starts, stamp, read⟩, ?_⟩
    rw [← check_eq_requested starts read noMessage, related, checked]
    rfl
  · rintro ⟨⟨rest, type, time, fields, starts, stamp, read⟩, asked⟩
    rw [← check_eq_requested starts read noMessage, Bool.and_eq_true] at asked
    exact ⟨rest, type, time, fields, starts, asked.1, asked.2, stamp, read⟩

theorem lsbGetNextJobRecFromFile_end (last : nextEventLine fp = (none, rest)) :
    lsbGetNextJobRecFromFile fl jobIds fp = (.eof, rest) := by
  rw [lsbGetNextJobRecFromFile]
  split
  · rename_i last'
    rw [last] at last'
    cases last'
    rfl
  · rename_i next
    rw [last] at next
    cases next

theorem lsbGetNextJobRecFromFile_line (next : nextEventLine fp = (some line, rest))
    (intact : Intact fl jobIds line) :
    (∃ f, lsbGetNextJobRecFromFile fl jobIds fp = (.failed f, rest) ∧
      quickRecordOf fl jobIds line = none) ∨
    (∃ r, lsbGetNextJobRecFromFile fl jobIds fp = (.record r, rest) ∧
      quickRecordOf fl jobIds line = some r) ∨
    (lsbGetNextJobRecFromFile fl jobIds fp = lsbGetNextJobRecFromFile fl jobIds rest ∧
      quickRecordOf fl jobIds line = none) := by
  rw [lsbGetNextJobRecFromFile]
  split
  · rename_i last
    rw [next] at last
    cases last
  · rename_i next'
    rw [next] at next'
    cases next'
    unfold quickRecordOf
    split
    · rename_i f failed
      have within : f ≠ .overrun := by
        rintro rfl
        exact intact.2 failed
      exact Or.inl ⟨f, by rw [got_of_ne within], by rw [failed]; rfl⟩
    · rename_i r _ read
      exact Or.inr (Or.inl ⟨r, rfl, by rw [read]; rfl⟩)
    · rename_i _ passed
      exact Or.inr (Or.inr ⟨rfl, by rw [passed]; rfl⟩)

theorem callAll_lsbGetNextJobRecFromFile (fl : FloatFormat) (jobIds : List Int64) (fp : Text)
    (intact : ∀ line ∈ eventLines fp, Intact fl jobIds line) :
    ∀ calls, lineCount fp < calls → callAll (lsbGetNextJobRecFromFile fl jobIds) calls fp =
      (eventLines fp).filterMap (quickRecordOf fl jobIds) := by
  induction size : lineCount fp using Nat.strongRecOn generalizing fp with
  | ind n ih =>
    subst size
    intro calls enough
    obtain ⟨calls, rfl⟩ : ∃ m, calls = m + 1 := ⟨calls - 1, by omega⟩
    cases next : nextEventLine fp with
    | mk line rest =>
      cases line with
      | none =>
        rw [callAll, lsbGetNextJobRecFromFile_end next, eventLines_end next]
        rfl
      | some line =>
        have shorter := nextEventLine_rest next
        rw [eventLines_line next] at intact ⊢
        have later := ih (lineCount rest) shorter rest
          (fun line mem => intact line (mem_cons_of_mem _ mem)) rfl
        rcases lsbGetNextJobRecFromFile_line next (intact line mem_cons_self) with
          ⟨f, got, quick⟩ | ⟨r, got, quick⟩ | ⟨got, quick⟩
        · rw [callAll, got, filterMap_cons_none quick]
          exact later calls (by omega)
        · rw [callAll, got, filterMap_cons_some quick, ← later calls (by omega)]
        · rw [filterMap_cons_none quick, ← later (calls + 1) (by omega), callAll, got, callAll]

theorem callAll_lsbGeteventrecEx (fl : FloatFormat) (calls : ℕ) (fp : Text)
    (intact : ∀ line ∈ eventLines fp, Intact fl jobIds line) (enough : lineCount fp < calls) :
    callAll (lsbGeteventrecEx fl) calls fp = (eventLines fp).filterMap (recordOf fl) := by
  induction calls generalizing fp with
  | zero => omega
  | succ calls ih =>
    cases next : nextEventLine fp with
    | mk line rest =>
      cases line with
      | none =>
        rw [callAll, lsbGeteventrecEx, next, eventLines_end next]
        rfl
      | some line =>
        have shorter := nextEventLine_rest next
        rw [eventLines_line next] at intact
        have later := ih rest (fun line mem => intact line (mem_cons_of_mem _ mem)) (by omega)
        rw [eventLines_line next, callAll, lsbGeteventrecEx, next]
        dsimp only
        cases read : readEvent fl line with
        | error f =>
          have none_read : recordOf fl line = none := by
            rw [recordOf, read]
            rfl
          have within : f ≠ .overrun := by
            rintro rfl
            exact (intact line mem_cons_self).1 read
          rw [filterMap_cons_none none_read]
          simp only [got_of_ne within]
          exact later
        | ok found =>
          have some_read : recordOf fl line = some found.1 := by
            rw [recordOf, read]
            rfl
          rw [filterMap_cons_some some_read, ← later]

def noMessage (r : EventRec) : Bool := !isMessage r.eventLog.type

def arrayEvents : List EventRec :=
  [⟨"10".toList, 1700000000, .jobClean ⟨5, 1⟩⟩, ⟨"10".toList, 1700000001, .jobClean ⟨5, 2⟩⟩,
    ⟨"10".toList, 1700000002, .jobMsg ⟨500, 5, 1, 0, "a".toList, "b".toList, "c".toList, 2⟩⟩]

end LogJobs
