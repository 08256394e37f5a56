import Jhlava.LogEvent

/-! A file of events: records written one after another and read by repeated
calls. Each call returns what the line of one record says, as long as every
record but the last ends its line. -/
namespace LogFile
open TextScan LogWords LogRecord LogWrite LogRead LogEvent List

def putEvents (rs : List EventRec) : Text := (rs.map lsbPuteventrec).flatten

/-- What `n` calls of `lsb_geteventrec_ex` return. -/
def getEvents (fl : FloatFormat) : ℕ → Text → List Got
  | 0, _ => []
  | n + 1, fp => (lsbGeteventrecEx fl fp).1 :: getEvents fl n (lsbGeteventrecEx fl fp).2

def Framed (rs : List EventRec) : Prop :=
  ∀ r ∈ rs.dropLast, r.eventLog.type ≠ .sbdJobStatus

variable (fl : FloatFormat)

theorem lsbGeteventrecEx_nil : lsbGeteventrecEx fl [] = (.eof, []) := by
  have none_left : nextEventLine [] = (none, []) := by
    rw [nextEventLine]
    split
    · rename_i eq
      rw [getNextLine_nil] at eq
      cases eq
      rfl
    · rename_i eq
      rw [getNextLine_nil] at eq
      cases eq
  rw [lsbGeteventrecEx, none_left]

theorem getEvents_nil (n : ℕ) : getEvents fl n [] = List.replicate n .eof := by
  induction n with
  | zero => rfl
  | succ n ih =>
    rw [getEvents, lsbGeteventrecEx_nil, ih]
    rfl

theorem framed_cons {r r' : EventRec} {rs : List EventRec} :
    Framed (r :: r' :: rs) ↔ r.eventLog.type ≠ .sbdJobStatus ∧ Framed (r' :: rs) := by
  simp [Framed]

theorem nextEventLine_putEvents {r : EventRec} {rs : List EventRec} (printable : PrintableRec r)
    (framed : Framed (r :: rs)) :
    nextEventLine (putEvents (r :: rs)) = (some (line r), putEvents rs) := by
  rw [putEvents, map_cons, flatten_cons]
  cases rs with
  | nil =>
    rw [map_nil, flatten_nil, append_nil]
    exact nextEventLine_last printable
  | cons r' rs =>
    exact nextEventLine_put printable (framed_cons.mp framed).1 _

/-- Reading a file of records returns for each of them, in order, what its own
line gives, and then the end of the file. -/
theorem getEvents_putEvents (rs : List EventRec) (printable : ∀ r ∈ rs, PrintableRec r)
    (plain : ∀ r ∈ rs, Plain r) (framed : Framed rs) (n : ℕ) :
    ∃ gots, List.Forall₂ (Outcome fl) rs gots ∧
      getEvents fl (rs.length + n) (putEvents rs) = gots ++ List.replicate n .eof := by
  induction rs with
  | nil =>
    refine ⟨[], List.Forall₂.nil, ?_⟩
    rw [length_nil, Nat.zero_add]
    exact getEvents_nil fl n
  | cons r rs ih =>
    have rest_framed : Framed rs := by
      cases rs with
      | nil => exact fun _ mem => absurd mem not_mem_nil
      | cons r' rs => exact (framed_cons.mp framed).2
    obtain ⟨gots, outcomes, read⟩ := ih (fun r' hr' => printable r' (mem_cons_of_mem r hr'))
      (fun r' hr' => plain r' (mem_cons_of_mem r hr')) rest_framed
    obtain ⟨got, outcome, first⟩ := lsbGeteventrecEx_of_line fl (plain r mem_cons_self)
      (nextEventLine_putEvents (printable r mem_cons_self) framed)
    refine ⟨got :: gots, List.Forall₂.cons outcome outcomes, ?_⟩
    rw [length_cons, Nat.add_right_comm, getEvents, first, read]
    rfl

/-! An open line leaves the file with fewer lines than records. -/

theorem lineCount_put {r : EventRec} (printable : PrintableRec r) (fp : Text) :
    lineCount (lsbPuteventrec r ++ fp) ≤
      if r.eventLog.type = .sbdJobStatus then max 1 (lineCount fp) else lineCount fp + 1 := by
  have shown := (isLine_line printable).printable
  rw [lsbPuteventrec_eq, append_assoc]
  refine (le_max_right 1 _).trans ?_
  rw [lineCount_append shown]
  split_ifs with opens
  · rw [opens]
    rfl
  · obtain ⟨pad, blanks, shape⟩ := lineEnd_of_ne opens
    have blank : ∀ c ∈ pad, Printable c := by
      intro c hc
      rw [blanks c hc]
      decide
    rw [shape, append_assoc, lineCount_append blank]
    simp [lineCount]

theorem lineCount_putEvents {rs : List EventRec} (printable : ∀ r ∈ rs, PrintableRec r) :
    lineCount (putEvents rs) ≤ rs.length ∧
      (¬Framed rs → lineCount (putEvents rs) < rs.length) := by
  induction rs with
  | nil => exact ⟨Nat.le_refl _, fun open_ => absurd (fun _ mem => absurd mem not_mem_nil) open_⟩
  | cons r rs ih =>
    obtain ⟨le, lt⟩ := ih fun r' hr' => printable r' (mem_cons_of_mem r hr')
    have first := lineCount_put (printable r mem_cons_self) (putEvents rs)
    have whole : putEvents (r :: rs) = lsbPuteventrec r ++ putEvents rs := rfl
    rw [whole, length_cons]
    cases rs with
    | nil =>
      refine ⟨first.trans ?_, fun open_ => absurd (fun _ mem => absurd mem not_mem_nil) open_⟩
      split_ifs <;> simp [putEvents, lineCount]
    | cons r' rs =>
      rw [framed_cons]
      rw [length_cons] at le lt ⊢
      split_ifs at first with opens
      · exact ⟨by omega, fun _ => by omega⟩
      · refine ⟨by omega, fun open_ => ?_⟩
        have := lt fun framed => open_ ⟨opens, framed⟩
        omega

theorem lineCount_of_got {fp : Text} (got : (lsbGeteventrecEx fl fp).1 ≠ .eof) :
    lineCount (lsbGeteventrecEx fl fp).2 < lineCount fp := by
  unfold lsbGeteventrecEx at got ⊢
  cases next : nextEventLine fp with
  | mk line rest =>
    rw [next] at got
    cases line with
    | none => exact absurd rfl got
    | some line =>
      have fewer := nextEventLine_rest next
      dsimp only
      cases readEvent fl line <;> exact fewer

theorem le_lineCount {m n : ℕ} {fp : Text} (enough : m ≤ n)
    (gots : ∀ got ∈ (getEvents fl n fp).take m, got ≠ .eof) : m ≤ lineCount fp := by
  induction m generalizing n fp with
  | zero => exact Nat.zero_le _
  | succ m ih =>
    obtain ⟨n, rfl⟩ := Nat.exists_eq_add_of_le' enough
    rw [← Nat.add_assoc, getEvents, take_succ_cons] at gots
    have fewer := lineCount_of_got fl (gots _ mem_cons_self)
    have rest := ih (Nat.le_add_left m n) fun got mem => gots got (mem_cons_of_mem _ mem)
    omega

theorem map_record_iff {rs : List EventRec} {gots : List Got}
    (outcomes : List.Forall₂ (Outcome fl) rs gots) :
    gots = rs.map .record ↔ ∀ r ∈ rs, Readable fl r ∧ logged fl r = r := by
  induction outcomes with
  | nil => simp
  | @cons r got rs gots outcome _ ih =>
    rw [map_cons, cons.injEq, ih, forall_mem_cons]
    rcases outcome with ⟨readable, rfl⟩ | ⟨unreadable, rfl⟩
    · simp [readable]
    · simp [unreadable]

def sbdStatus : EventRec :=
  ⟨"10".toList, 1700000000, .sbdJobStatus ⟨7, 4, 0, 0, 0, 0, 0, 0, 0, 0, 0, 0⟩⟩

def cleanJob : EventRec := ⟨"10".toList, 1700000001, .jobClean ⟨7, 0⟩⟩

end LogFile
