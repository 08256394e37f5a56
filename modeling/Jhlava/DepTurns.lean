import Jhlava.DepParse

/-! When the loops of `parseDepCond` come to an end. `getToken` answers a
character that begins no token with an empty name and does not step over it,
so the loops that go on after a name can stay there for ever. -/
namespace Jhlava.Dep
open CValues List

def Stuck (s : List Char) : Prop := ∃ rest, getToken s = some (⟨.name, []⟩, rest)

theorem scanQuoted_length (quote : Char) (room : Nat) (cs : List Char) :
    (scanQuoted quote room cs).2.length ≤ cs.length := by
  induction room generalizing cs with
  | zero => exact Nat.le_refl _
  | succ room ih =>
    cases cs with
    | nil => exact Nat.le_refl _
    | cons c cs =>
      unfold scanQuoted
      split
      · exact Nat.le_succ _
      · exact Nat.le_succ_of_le (ih cs)

theorem scanValid_length (room : Nat) (cs : List Char) :
    (scanValid room cs).1.length + (scanValid room cs).2.length = cs.length := by
  induction room generalizing cs with
  | zero => exact Nat.zero_add _
  | succ room ih =>
    cases cs with
    | nil => rfl
    | cons c cs =>
      unfold scanValid
      split
      · have := ih cs
        simp only [length_cons]
        omega
      · exact Nat.zero_add _

theorem scanName_length (start cs : List Char) : (scanName start cs).2.length ≤ cs.length := by
  unfold scanName
  split
  · rename_i c cs
    split
    · exact Nat.le_succ_of_le (scanQuoted_length _ _ _)
    · have := scanValid_length (tokenRoom - start.length) (c :: cs)
      dsimp only
      omega
  · exact Nat.le_refl _

theorem scanValid_nil {room : Nat} {c : Char} {cs : List Char}
    (h : (scanValid (room + 1) (c :: cs)).1 = []) :
    scanValid (room + 1) (c :: cs) = ([], c :: cs) := by
  unfold scanValid at h ⊢
  split at h
  · cases h
  · rename_i invalid
    rw [if_neg invalid]

theorem scanName_start (start cs : List Char) : start <+: (scanName start cs).1.text := by
  unfold scanName
  split
  · split
    · exact prefix_append _ _
    · exact prefix_append _ _
  · exact prefix_refl _

theorem scanName_advances (c : Char) (cs : List Char) :
    ((scanName [] (c :: cs)).1.text ≠ [] ∧ (scanName [] (c :: cs)).2.length < (c :: cs).length) ∨
      scanName [] (c :: cs) = (⟨.name, []⟩, c :: cs) := by
  by_cases quoted : isQuote c = true
  · simp only [scanName, quoted, if_true, nil_append]
    exact Or.inl ⟨cons_ne_nil _ _, Nat.lt_succ_of_le (scanQuoted_length _ _ _)⟩
  · simp only [scanName, quoted, Bool.false_eq_true, if_false, nil_append]
    have room : tokenRoom - ([] : List Char).length = 2046 + 1 := rfl
    rw [room]
    have total := scanValid_length (2046 + 1) (c :: cs)
    by_cases empty : (scanValid (2046 + 1) (c :: cs)).1 = []
    · refine Or.inr ?_
      rw [scanValid_nil empty]
    · have some_ := length_pos_iff.mpr empty
      exact Or.inl ⟨empty, by omega⟩

theorem tokenTable_nonempty : ∀ entry ∈ tokenTable, 0 < entry.name.length := by decide

theorem dropWhile_isspace_idem (s : List Char) :
    (s.dropWhile isspace).dropWhile isspace = s.dropWhile isspace := by
  induction s with
  | nil => rfl
  | cons c s ih =>
    by_cases blank : isspace c = true
    · rw [dropWhile_cons_of_pos blank, ih]
    · rw [dropWhile_cons_of_neg blank, dropWhile_cons_of_neg blank]

variable {rest s : List Char} {t : Token}

theorem getToken_advances (h : getToken s = some (t, rest)) :
    (t.text ≠ [] ∧ rest.length < s.length) ∨ (t = ⟨.name, []⟩ ∧ rest = s.dropWhile isspace) := by
  have blanks : (s.dropWhile isspace).length ≤ s.length := (dropWhile_sublist _).length_le
  unfold getToken at h
  split at h
  · cases h
  · rename_i text nonempty
    obtain ⟨c, cs, head⟩ := exists_cons_of_ne_nil nonempty
    rw [head] at h blanks ⊢
    split at h
    · rcases scanName_advances c cs with ⟨some_, less⟩ | same
      · rw [Option.some.inj h] at some_ less
        exact Or.inl ⟨some_, Nat.lt_of_lt_of_le less blanks⟩
      · rw [same] at h
        cases h
        exact Or.inr ⟨rfl, rfl⟩
    · rename_i entry found
      have long := tokenTable_nonempty entry (mem_of_find?_eq_some found)
      have shorter : ((c :: cs).drop entry.name.length).length < (c :: cs).length := by
        rw [length_drop, length_cons]
        omega
      have keyword : entry.name.toList ≠ [] := by
        rw [← length_pos_iff]
        exact long
      dsimp only at h
      split at h
      · have begins := scanName_start entry.name.toList ((c :: cs).drop entry.name.length)
        have short := scanName_length entry.name.toList ((c :: cs).drop entry.name.length)
        rw [Option.some.inj h] at begins short
        dsimp only at begins short
        refine Or.inl ⟨?_, by omega⟩
        intro empty
        rw [empty] at begins
        exact keyword (prefix_nil.mp begins)
      · cases h
        exact Or.inl ⟨keyword, by omega⟩

theorem getToken_stays (h : getToken s = some (⟨.name, []⟩, rest)) :
    getToken rest = some (⟨.name, []⟩, rest) := by
  have step : getToken (s.dropWhile isspace) = getToken s := by
    unfold getToken
    rw [dropWhile_isspace_idem]
  rcases getToken_advances h with ⟨some_, _⟩ | ⟨_, same⟩
  · exact absurd rfl some_
  · rw [same, step, h, same]

theorem getToken_length (h : getToken s = some (t, rest)) : rest.length ≤ s.length := by
  rcases getToken_advances h with ⟨_, less⟩ | ⟨_, same⟩
  · exact Nat.le_of_lt less
  · rw [same]
    exact (dropWhile_sublist _).length_le

section Turns

variable (env : DepEnv) (lsfUserName : String) (windowConf : Bool) (pastTable : Int)

/-- The state of the main loop before a token is read. -/
structure Config where
  l : Locals
  st : Stacks
  s : List Char

def Config.start (s : List Char) : Config := ⟨Locals.init, ⟨[], []⟩, s⟩

def Turn (c c' : Config) : Prop :=
  ∃ fuel item, readItem env lsfUserName windowConf c.l fuel c.s = .ok (some (item, c'.l, c'.s)) ∧
    feed pastTable c.st item = some c'.st

/-- The states the main loop passes through on a text. -/
inductive Reached (s : List Char) : Config → Prop where
  | start : Reached s (Config.start s)
  | turn {c c' : Config} (before : Reached s c)
      (step : Turn env lsfUserName windowConf pastTable c c') : Reached s c'

/-- Names follow one another up to a character that begins no token. -/
inductive WindowStalls : List Char → Prop where
  | here {s : List Char} (stuck : Stuck s) : WindowStalls s
  | next {s rest : List Char} {t : Token} (token : getToken s = some (t, rest))
      (name : t.type = .name) (later : WindowStalls rest) : WindowStalls s

/-- The text opens a `time(` whose names stall. -/
def OpensStalledWindow (s : List Char) : Prop :=
  ∃ time left rest rest', getToken s = some (time, rest) ∧ time.type = .window ∧
    getToken rest = some (left, rest') ∧ left.type = .left ∧ WindowStalls rest'

/-- A turn that does not end: the names of a `time(` stall, or during replay the
text does, where an unknown job is no error. -/
def Stalls (c : Config) : Prop :=
  OpensStalledWindow c.s ∨
    (env.replayStage = true ∧ windowConf = false ∧ Stuck c.s ∧
      (env.parseJobArrayIndex [] = none → c.l.numJob ≤ 1))

end Turns

section Stalled

variable {env : DepEnv} {lsfUserName : String} {windowConf : Bool} {pastTable : Int}

theorem readWindows_stuck (l : Locals) (fuel : Nat) (h : getToken s = some (⟨.name, []⟩, s)) :
    readWindows l fuel s = .error .fuel := by
  induction fuel with
  | zero => rfl
  | succ fuel ih =>
    unfold readWindows nextToken
    rw [h]
    simp [bind, Except.bind, ih]

theorem readWindows_stalls (l : Locals) (fuel : Nat) (h : WindowStalls s) :
    readWindows l fuel s = .error .fuel := by
  induction h generalizing fuel with
  | here stuck =>
    obtain ⟨rest, token⟩ := stuck
    cases fuel with
    | zero => rfl
    | succ fuel =>
      unfold readWindows nextToken
      rw [token]
      simp [bind, Except.bind, readWindows_stuck l fuel (getToken_stays token)]
  | next token name _ ih =>
    cases fuel with
    | zero => rfl
    | succ fuel =>
      unfold readWindows nextToken
      rw [token]
      simp [bind, Except.bind, name, ih fuel]

variable {c : Config} {fuel : Nat} {l : Locals} {r : DptNode × Locals × List Char} {type : DptType}
  {α : Type}

theorem readWindows_fuel (h : readWindows l fuel s = .error .fuel) :
    fuel ≤ s.length ∨ WindowStalls s := by
  induction fuel generalizing s with
  | zero => exact Or.inl (Nat.zero_le _)
  | succ fuel ih =>
    unfold readWindows nextToken at h
    cases token : getToken s with
    | none =>
      rw [token] at h
      cases h
    | some next =>
      obtain ⟨t, rest⟩ := next
      rw [token] at h
      simp only [bind, Except.bind] at h
      split at h
      · cases h
      · split at h
        · rename_i name
          cases inner : readWindows l fuel rest with
          | ok r =>
            rw [inner] at h
            cases h
          | error stop =>
            rw [inner] at h
            cases h
            rcases ih inner with short | stalls
            · rcases getToken_advances token with ⟨_, less⟩ | ⟨rfl, _⟩
              · exact Or.inl (by omega)
              · exact Or.inr (.here ⟨rest, token⟩)
            · exact Or.inr (.next token name stalls)
        · cases h

/-- The run comes to an end, and leaves at most `n` characters. -/
def Ends (n : Nat) (left : α → List Char) (x : Except ParseStop α) : Prop :=
  x ≠ .error .fuel ∧ ∀ a, x = .ok a → (left a).length ≤ n

section Ends

variable {α β : Type} {m n : Nat} {left : β → List Char} {f : α → Except ParseStop β}

theorem Ends.ok {b : β} (h : (left b).length ≤ n) : Ends n left (.ok b) := by
  constructor
  · intro run
    cases run
  · rintro a ⟨⟩
    exact h

theorem Ends.error {stop : ParseStop} (h : stop ≠ .fuel) : Ends n left (.error stop) := by
  constructor
  · rintro ⟨⟩
    exact h rfl
  · intro a run
    cases run

theorem Ends.fail (l : Locals) : Ends n left (Dep.fail l) := .error (by simp)

theorem Ends.failed (l : Locals) : Ends n left (Dep.fail l >>= f) := .fail l

variable {left' : α → List Char} {x : Except ParseStop α}

theorem Ends.bind (hx : Ends m left' x) (next : ∀ a, (left' a).length ≤ m → Ends n left (f a)) :
    Ends n left (x >>= f) := by
  cases x with
  | error stop => exact .error fun same => hx.1 (by rw [same])
  | ok a => exact next a (hx.2 a rfl)

theorem Ends.pure_bind {a : α} (h : Ends n left (f a)) : Ends n left (Pure.pure a >>= f) := h

theorem Ends.map {g : α → β} (hx : Ends n left' x) (same : ∀ a, left (g a) = left' a) :
    Ends n left (x.map g) := by
  refine hx.bind fun a short => .ok ?_
  rwa [same]

theorem ends_nextToken (l : Locals) (s : List Char) : Ends s.length Prod.snd (nextToken l s) := by
  unfold nextToken
  split
  · rename_i token
    exact .ok (getToken_length token)
  · exact .fail l

theorem ends_expect (l : Locals) (type : DptType) (s : List Char) :
    Ends s.length id (expect l type s) := by
  refine (ends_nextToken l s).bind fun r short => ?_
  dsimp only
  split
  · exact .ok short
  · exact .fail l

theorem ends_failIf (l : Locals) (b : Bool) : Ends 0 (fun _ => []) (failIf l b) := by
  unfold failIf
  split
  · exact .fail l
  · exact .ok (Nat.le_refl _)

theorem ends_readCondition (l : Locals) (star : Bool) (given : DptType × Int) (s : List Char) :
    Ends s.length Prod.snd (readCondition l star given s) := by
  unfold readCondition
  -- every branch is a chain of tokens, checks and failures
  repeat' first
    | with_reducible exact Ends.fail l
    | with_reducible exact Ends.failed l
    | with_reducible refine Ends.pure_bind ?_
    | with_reducible refine (ends_nextToken l _).bind fun _ _ => ?_
    | with_reducible refine (ends_expect l _ _).bind fun _ _ => ?_
    | exact Ends.ok (by dsimp only [id] at *; omega)
    | split
    | dsimp only

theorem ends_lookupJobs (l : Locals) (useFlag : Bool) (text : List Char) :
    Ends 0 (fun _ => []) (lookupJobs env lsfUserName l useFlag text) := by
  unfold lookupJobs
  generalize matchJobs env text lsfUserName _ = r
  dsimp only
  split
  · exact .fail _
  · split
    · exact .error (by simp)
    · exact .ok (Nat.le_refl _)

end Ends

def behind (r : DptNode × Locals × List Char) : List Char := r.2.2

theorem ends_readJobTerm (l : Locals) (type : DptType) (s : List Char) :
    Ends s.length behind (readJobTerm env lsfUserName windowConf l type s) := by
  refine (ends_failIf l _).bind fun _ _ => ?_
  refine (ends_expect l _ _).bind fun rest short => ?_
  refine (ends_nextToken l _).bind fun next short' => ?_
  refine (ends_lookupJobs l _ _).bind fun _ _ => ?_
  dsimp only [id] at short ⊢
  split
  · exact (ends_readCondition _ _ _ _).bind fun r _ => .ok (by dsimp only [behind]; omega)
  · exact (ends_expect _ _ _).bind fun r _ => .ok (by dsimp only [behind, id] at *; omega)

theorem ends_readName (l : Locals) (text s : List Char) :
    Ends s.length behind (readName env lsfUserName windowConf l text s) := by
  refine (ends_failIf l _).bind fun _ _ => ?_
  exact (ends_lookupJobs l _ _).bind fun _ _ => .ok (Nat.le_refl _)

theorem ends_readNumTerm (l : Locals) (type : DptType) (s : List Char) :
    Ends s.length behind (readNumTerm env l type s) := by
  refine (ends_expect l _ _).bind fun rest short => ?_
  refine (ends_nextToken l _).bind fun next short' => ?_
  refine (ends_failIf _ _).bind fun _ _ => ?_
  exact (ends_readCondition _ _ _ _).bind fun r _ => .ok (by dsimp only [behind, id] at *; omega)

theorem expect_eq_ok (h : expect l type s = .ok rest) :
    ∃ t, getToken s = some (t, rest) ∧ t.type = type := by
  obtain ⟨⟨t, rest'⟩, token, h⟩ := bind_eq_ok.mp h
  unfold nextToken at token
  split at token
  · rename_i found
    cases token
    dsimp only at h
    split at h
    · rename_i right
      cases h
      exact ⟨t, found, right⟩
    · cases h
  · cases token

theorem readWindowTerm_fuel (h : readWindowTerm env l fuel s = .error .fuel) :
    ∃ left rest, getToken s = some (left, rest) ∧ left.type = .left ∧
      (fuel ≤ rest.length ∨ WindowStalls rest) := by
  unfold readWindowTerm at h
  cases opened : expect l .left s with
  | error stop =>
    rw [opened] at h
    cases h
    exact absurd opened (ends_expect l .left s).1
  | ok rest =>
    obtain ⟨left, token, type⟩ := expect_eq_ok opened
    refine ⟨left, rest, token, type, readWindows_fuel (l := l) ?_⟩
    rw [opened] at h
    simp only [bind, Except.bind] at h
    cases names : readWindows l fuel rest with
    | error stop =>
      rw [names] at h
      cases h
      rfl
    | ok r =>
      rw [names] at h
      dsimp only at h
      split at h
      · cases h
      · cases h

theorem readWindows_length {r : List (List Char) × List Char} (run : readWindows l fuel s = .ok r) :
    r.2.length ≤ s.length := by
  induction fuel generalizing s r with
  | zero => cases run
  | succ fuel ih =>
    obtain ⟨⟨t, rest⟩, token, run⟩ := bind_eq_ok.mp run
    have short := (ends_nextToken l s).2 _ token
    dsimp only at run
    split at run
    · cases run
      exact short
    · split at run
      · obtain ⟨⟨ws, rest'⟩, inner, run⟩ := bind_eq_ok.mp run
        cases run
        have shorter : rest'.length ≤ rest.length := ih inner
        exact shorter.trans short
      · cases run

theorem readWindowTerm_length (run : readWindowTerm env l fuel s = .ok r) :
    (behind r).length ≤ s.length := by
  obtain ⟨rest, opened, run⟩ := bind_eq_ok.mp run
  obtain ⟨⟨ws, rest'⟩, names, run⟩ := bind_eq_ok.mp run
  dsimp only at run
  split at run
  · cases run
    exact Nat.le_trans (readWindows_length names) ((ends_expect l .left s).2 _ opened)
  · cases run

def leftOf (r : Option (Item × Locals × List Char)) : List Char := r.elim [] fun r => r.2.2

section

variable (token : getToken s = some (t, rest))
include token

theorem expect_of_token : expect l t.type s = .ok rest := by
  unfold expect nextToken
  rw [token]
  simp only [bind, Except.bind, if_pos]
  rfl

theorem readItem_window (window : t.type = .window) :
    readItem env lsfUserName windowConf l fuel s =
      (readWindowTerm env l fuel rest).map fun (node, l, s) => some (.operand node, l, s) := by
  unfold readItem
  rw [token]
  simp [window]

theorem ends_readItem (fuel : Nat) (other : t.type ≠ .window) :
    Ends rest.length leftOf (readItem env lsfUserName windowConf l fuel s) := by
  unfold readItem
  rw [token]
  dsimp only
  split
  case h_6 => contradiction
  all_goals first
    | exact .ok (Nat.le_refl _)
    | exact .fail l
    | exact (ends_readJobTerm _ _ _).map fun _ => rfl
    | exact (ends_readName _ _ _).map fun _ => rfl
    | exact (ends_readNumTerm _ _ _).map fun _ => rfl

end

theorem readItem_op {l' : Locals} {s' : List Char}
    (h : readItem env lsfUserName windowConf l fuel s = .ok (some (.op type, l', s'))) :
    (type = .and ∨ type = .or ∨ type = .not) ∧ ∃ text, getToken s = some (⟨type, text⟩, s') := by
  have operand : ∀ {x : Except ParseStop (DptNode × Locals × List Char)},
      x.map (fun r => some (Item.operand r.1, r.2.1, r.2.2)) ≠ .ok (some (.op type, l', s')) := by
    intro x hx
    obtain ⟨node, l₁, s₁, read, eq⟩ := operand_eq_ok hx
    cases eq
  unfold readItem at h
  cases token : getToken s with
  | none =>
    rw [token] at h
    cases h
  | some next =>
    obtain ⟨⟨type', text⟩, rest⟩ := next
    rw [token] at h
    cases type'
    case and | or | not =>
      cases h
      simp
    all_goals first | exact absurd h operand | cases h

theorem readItem_fuel (h : readItem env lsfUserName windowConf l fuel s = .error .fuel) :
    fuel ≤ s.length ∨ OpensStalledWindow s := by
  cases token : getToken s with
  | none =>
    simp only [readItem, token] at h
    cases h
  | some next =>
    obtain ⟨t, rest⟩ := next
    by_cases window : t.type = .window
    · rw [readItem_window token window] at h
      have inner : readWindowTerm env l fuel rest = .error .fuel := by
        cases run : readWindowTerm env l fuel rest with
        | error stop =>
          rw [run] at h
          cases h
          rfl
        | ok r =>
          rw [run] at h
          cases h
      obtain ⟨left, rest', token', type, short | stalls⟩ := readWindowTerm_fuel inner
      · have := getToken_length token
        have := getToken_length token'
        exact Or.inl (by omega)
      · exact Or.inr ⟨t, left, rest, rest', token, window, token', type, stalls⟩
    · exact absurd h (ends_readItem token fuel window).1

theorem readItem_length {r : Option (Item × Locals × List Char)}
    (token : getToken s = some (t, rest))
    (h : readItem env lsfUserName windowConf l fuel s = .ok r) :
    (leftOf r).length ≤ rest.length := by
  by_cases window : t.type = .window
  · rw [readItem_window token window] at h
    obtain ⟨node, l', s', run, rfl⟩ := operand_eq_ok h
    exact readWindowTerm_length run
  · exact (ends_readItem token fuel window).2 r h

variable (env lsfUserName) in
theorem matchJobs_nothing (refs : MatchRefs) :
    (matchJobs env [] lsfUserName refs).1 = none ∧
    (matchJobs env [] lsfUserName refs).2.numFoundJob =
      if env.parseJobArrayIndex [] = none then refs.numFoundJob else 0 := by
  have index : indexText [] = [] := rfl
  unfold matchJobs
  rw [index]
  cases env.parseJobArrayIndex [] with
  | none => exact ⟨rfl, rfl⟩
  | some idxList => exact ⟨rfl, rfl⟩

variable (env lsfUserName) in
theorem lookupJobs_nothing (l : Locals) : ∃ idx l',
    l'.numJob = (if env.parseJobArrayIndex [] = none then l.numJob else 0) ∧
    lookupJobs env lsfUserName l false [] =
      if env.replayStage = false then fail l'
      else if 1 < l'.numJob then .error .crash else .ok (none, idx, l') := by
  obtain ⟨unknown, count⟩ := matchJobs_nothing env lsfUserName
    ⟨l.numJob, l.replyCode, none, l.notExistArrayJob, none⟩
  simp only [lookupJobs, Bool.false_eq_true, if_false]
  generalize matchJobs env [] lsfUserName
    ⟨l.numJob, l.replyCode, none, l.notExistArrayJob, none⟩ = r at unknown count ⊢
  refine ⟨r.2.jobIdx,
    { l with
      numJob := r.2.numFoundJob
      replyCode := r.2.replyCode
      notExistArrayJob := r.2.element
      opFlag := r.2.flag.getD l.opFlag }, count, ?_⟩
  simp [unknown]

variable (lsfUserName) in
theorem readName_empty (l : Locals) (s : List Char) (replay : env.replayStage = true)
    (submitted : windowConf = false) (few : env.parseJobArrayIndex [] = none → l.numJob ≤ 1) :
    ∃ node l', readName env lsfUserName windowConf l [] s = .ok (node, l', s) ∧
      (env.parseJobArrayIndex [] = none → l'.numJob ≤ 1) := by
  obtain ⟨idx, l', count, found⟩ := lookupJobs_nothing env lsfUserName l
  have notMany : ¬ 1 < l'.numJob := by
    rw [count]
    split
    · rename_i none_
      exact Nat.not_lt.mpr (few none_)
    · decide
  rw [if_neg (by simp [replay]), if_neg notMany] at found
  refine ⟨.term l'.nextId (.job .done .and 0 false none none),
    { l' with nextId := l'.nextId + 1 }, ?_, fun _ => Nat.not_lt.mp notMany⟩
  unfold readName
  rw [submitted, found]
  rfl

theorem readName_empty_ok (run : readName env lsfUserName windowConf l [] s = .ok r) :
    env.replayStage = true ∧ windowConf = false ∧
      (env.parseJobArrayIndex [] = none → l.numJob ≤ 1) := by
  obtain ⟨idx, l', count, found⟩ := lookupJobs_nothing env lsfUserName l
  unfold readName at run
  cases conf : windowConf with
  | true =>
    rw [conf] at run
    cases run
  | false =>
    rw [conf, found] at run
    cases replay : env.replayStage with
    | false =>
      rw [if_pos replay] at run
      cases run
    | true =>
      refine ⟨rfl, rfl, ?_⟩
      intro none_
      rw [if_pos none_] at count
      by_contra many
      rw [if_neg (by simp [replay]), if_pos (by omega)] at run
      cases run

theorem readItem_advances {l' : Locals} {s' : List Char} {item : Item}
    (h : readItem env lsfUserName windowConf l fuel s = .ok (some (item, l', s'))) :
    s'.length < s.length ∨
      (env.replayStage = true ∧ windowConf = false ∧ Stuck s ∧
        (env.parseJobArrayIndex [] = none → l.numJob ≤ 1)) := by
  cases token : getToken s with
  | none =>
    simp only [readItem, token] at h
    cases h
  | some next =>
    obtain ⟨t, rest⟩ := next
    rcases getToken_advances token with ⟨_, less⟩ | ⟨rfl, _⟩
    · exact Or.inl (Nat.lt_of_le_of_lt (readItem_length token h) less)
    · simp only [readItem, token] at h
      obtain ⟨node, l₁, s₁, run, -⟩ := operand_eq_ok h
      obtain ⟨replay, submitted, few⟩ := readName_empty_ok run
      exact Or.inr ⟨replay, submitted, ⟨rest, token⟩, few⟩

/-- `y` gives the answer of `x`, or runs out of fuel. -/
def Meets (x y : Except ParseStop α) : Prop := ∀ a, x = .ok a → y = .ok a ∨ y = .error .fuel

section Meets

variable {α β : Type} {x y : Except ParseStop α} {f g : α → Except ParseStop β}

theorem Meets.same : Meets x x := fun _ => Or.inl

theorem Meets.bind (h : Meets x y) (next : ∀ a, Meets (f a) (g a)) : Meets (x >>= f) (y >>= g) := by
  intro b run
  obtain ⟨a, first, run⟩ := bind_eq_ok.mp run
  rcases h a first with rfl | rfl
  · exact next a b run
  · exact Or.inr rfl

end Meets

section Fuel

variable (l : Locals) (fuel fuel' : Nat) (s : List Char)

theorem readWindows_mono : Meets (readWindows l fuel s) (readWindows l fuel' s) := by
  induction fuel' generalizing fuel s with
  | zero => exact fun _ _ => Or.inr rfl
  | succ fuel' ih =>
    cases fuel with
    | zero =>
      intro a run
      cases run
    | succ fuel =>
      refine Meets.same.bind fun r => ?_
      dsimp only
      split
      · exact .same
      · split
        · exact (ih fuel r.2).bind fun _ => .same
        · exact .same

theorem readItem_mono : Meets (readItem env lsfUserName windowConf l fuel s)
    (readItem env lsfUserName windowConf l fuel' s) := by
  cases token : getToken s with
  | none =>
    simp only [readItem, token]
    exact .same
  | some next =>
    obtain ⟨t, rest⟩ := next
    by_cases window : t.type = .window
    · rw [readItem_window token window, readItem_window token window]
      refine Meets.bind ?_ fun _ => .same
      exact Meets.same.bind fun r => (readWindows_mono l fuel fuel' r).bind fun _ => .same
    · have same : readItem env lsfUserName windowConf l fuel' s =
          readItem env lsfUserName windowConf l fuel s := by
        unfold readItem
        rw [token]
        dsimp only
        split
        case h_6 => contradiction
        all_goals rfl
      rw [same]
      exact .same

end Fuel

def NeverReturns (env : DepEnv) (lsfUserName : String) (windowConf : Bool) (pastTable : Int)
    (c : Config) : Prop :=
  ∀ fuel, parseLoop env lsfUserName windowConf pastTable fuel c.l c.st c.s = .error .fuel

theorem Turn.neverReturns {c' : Config} (step : Turn env lsfUserName windowConf pastTable c c')
    (h : NeverReturns env lsfUserName windowConf pastTable c') :
    NeverReturns env lsfUserName windowConf pastTable c := by
  intro fuel
  obtain ⟨given, item, read, fed⟩ := step
  cases fuel with
  | zero => rfl
  | succ fuel =>
    unfold parseLoop
    rcases readItem_mono _ _ fuel _ _ read with same | short
    · rw [same]
      simp only [fed]
      exact h fuel
    · rw [short]

theorem Reached.neverReturns (reached : Reached env lsfUserName windowConf pastTable s c)
    (h : NeverReturns env lsfUserName windowConf pastTable c) :
    NeverReturns env lsfUserName windowConf pastTable (Config.start s) := by
  induction reached with
  | start => exact h
  | turn before step ih => exact ih (step.neverReturns h)

theorem OpensStalledWindow.neverReturns (h : OpensStalledWindow c.s) :
    NeverReturns env lsfUserName windowConf pastTable c := by
  intro fuel
  obtain ⟨time, left, rest, rest', token, window, token', type, stalls⟩ := h
  cases fuel with
  | zero => rfl
  | succ fuel =>
    have opened : expect c.l .left rest = .ok rest' := by
      rw [← type]
      exact expect_of_token token'
    have term : readWindowTerm env c.l fuel rest = .error .fuel := by
      unfold readWindowTerm
      rw [opened]
      simp only [bind, Except.bind, readWindows_stalls c.l fuel stalls]
    unfold parseLoop
    rw [readItem_window token window, term]
    rfl

theorem replay_neverReturns (replay : env.replayStage = true) (submitted : windowConf = false)
    (stuck : Stuck c.s) (few : env.parseJobArrayIndex [] = none → c.l.numJob ≤ 1) :
    NeverReturns env lsfUserName windowConf pastTable c := by
  intro fuel
  induction fuel generalizing c with
  | zero => rfl
  | succ fuel ih =>
    obtain ⟨rest, token⟩ := stuck
    obtain ⟨node, l', read, few'⟩ :=
      readName_empty lsfUserName c.l rest replay submitted few
    have item : readItem env lsfUserName windowConf c.l fuel c.s =
        .ok (some (.operand node, l', rest)) := by
      unfold readItem
      rw [token]
      simp only [read]
      rfl
    have again : Stuck rest := ⟨rest, getToken_stays token⟩
    unfold parseLoop
    rw [item]
    exact ih (c := ⟨l', ⟨c.st.operators, node :: c.st.operands⟩, rest⟩) again few'

theorem Stalls.neverReturns (h : Stalls env windowConf c) :
    NeverReturns env lsfUserName windowConf pastTable c := by
  rcases h with window | ⟨replay, submitted, stuck, few⟩
  · exact window.neverReturns
  · exact replay_neverReturns replay submitted stuck few

theorem parseLoop_returns
    (moving : ∀ c, Reached env lsfUserName windowConf pastTable s c → ¬ Stalls env windowConf c)
    (reached : Reached env lsfUserName windowConf pastTable s c) (enough : c.s.length + 1 < fuel) :
    parseLoop env lsfUserName windowConf pastTable fuel c.l c.st c.s ≠ .error .fuel := by
  induction fuel generalizing c with
  | zero => omega
  | succ fuel ih =>
    unfold parseLoop
    cases read : readItem env lsfUserName windowConf c.l fuel c.s with
    | error stop =>
      intro h
      cases h
      rcases readItem_fuel read with short | window
      · omega
      · exact moving c reached (Or.inl window)
    | ok next =>
      cases next with
      | none =>
        dsimp only
        split
        · exact fun run => by cases run
        · exact fun run => by cases run
      | some next =>
        obtain ⟨item, l', s'⟩ := next
        dsimp only
        split
        · exact fun run => by cases run
        · rename_i st' fed
          have step : Turn env lsfUserName windowConf pastTable c ⟨l', st', s'⟩ :=
            ⟨fuel, item, read, fed⟩
          rcases readItem_advances read with less | stall
          · exact ih (.turn reached step) (by dsimp only; omega)
          · exact absurd (Or.inr stall) (moving c reached)

end Stalled

/-- `parseDepCond` comes to an end exactly on the texts on which no state of the
main loop stalls. -/
theorem parseDepCond_returns_iff (env : DepEnv) (lsfUserName : String) (windowConf : Bool)
    (pastTable : Int) (s : List Char) :
    (∃ fuel, parseDepCond env lsfUserName windowConf pastTable fuel s ≠ .error .fuel) ↔
      ∀ c, Reached env lsfUserName windowConf pastTable s c → ¬ Stalls env windowConf c := by
  constructor
  · rintro ⟨fuel, returns⟩ c reached stalls
    exact returns (reached.neverReturns stalls.neverReturns fuel)
  · intro moving
    refine ⟨s.length + 2, ?_⟩
    exact parseLoop_returns moving .start (Nat.lt_succ_self _)

/-- A number sign begins no token: a window that holds one is read for ever at
submission, and in replay so is the sign alone. -/
theorem parseDepCond_never_returns :
    (∀ fuel, parseDepCond (plainEnv false []) "amy" false 0 fuel "time(#)".toList =
      .error .fuel) ∧
    (∀ fuel, parseDepCond { plainEnv false [] with replayStage := true } "amy" false 0 fuel
      "#".toList = .error .fuel) := by
  constructor
  · intro fuel
    have window : OpensStalledWindow "time(#)".toList :=
      ⟨⟨.window, "time".toList⟩, ⟨.left, "(".toList⟩, "(#)".toList, "#)".toList, by decide, rfl,
        by decide, rfl, .here ⟨"#)".toList, by decide⟩⟩
    exact window.neverReturns (c := Config.start "time(#)".toList) fuel
  · intro fuel
    exact replay_neverReturns (c := Config.start "#".toList) rfl rfl
      ⟨"#".toList, by decide⟩ (fun _ => by decide) fuel

end Jhlava.Dep
