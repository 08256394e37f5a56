import Jhlava.ConfTree

/-! `getNextLineC_conf` with `confFormat`, which joins the lines of `readNextLine`. -/
namespace Jhlava.Conf
open CValues TextScan List

/-- The loop over a line: what goes to `myLine`, and `toBeContinue`. -/
def myLine : Text → Text × Bool
  | [] => ([], false)
  | ['\\'] => ([], true)
  | '\\' :: c :: sp =>
    if isspace c then myLine sp
    else ('\\' :: (myLine (c :: sp)).1, (myLine (c :: sp)).2)
  | c :: sp =>
    if c = '#' then ([], false)
    else ((if isspace c then ' ' else c) :: (myLine sp).1, (myLine sp).2)

def cutEnd (line : Text) : Text := line.rdropWhile (· == ' ')

/-- `longLine` behind one turn of the loop. -/
def extendLine (longLine : Option Text) (line : Text) : Option Text :=
  let kept := if (myLine line).2 then (myLine line).1 else cutEnd (myLine line).1
  if kept = [] ∧ longLine = none then none else some (longLine.getD [] ++ kept)

/-- The loop of `getNextLineC_conf` where `readNextLine` still has the lines to return. -/
def getNextLineC (longLine : Option Text) : List Text → Option (Text × List Text)
  | [] => none
  | line :: lines =>
    match extendLine longLine line with
    | none => getNextLineC none lines
    | some l => if (myLine line).2 then getNextLineC (some l) lines else some (l, lines)

/-- The lines of `fuel` calls. -/
def getNextLines : Nat → List Text → List Text
  | 0, _ => []
  | fuel + 1, lines =>
    match getNextLineC none lines with
    | none => []
    | some (line, lines) => line :: getNextLines fuel lines

/-! ### Logical lines -/

def continued (line : Text) : Bool := !line.contains '#' && line.getLast? = some '\\'

/-- A line without its comment and its continuation; white space is blank. -/
def body (line : Text) : Text :=
  ((if continued line then line.dropLast else line).takeWhile (· ≠ '#')).map fun c =>
    if isspace c then ' ' else c

def nonEmpty (line : Text) : List Text := if line = [] then [] else [line]

/-- Lines joined behind the text `before`; the text that is open at the end is a line too. -/
def logicalFrom (before : Text) : List Text → List Text
  | [] => nonEmpty (cutEnd before)
  | line :: lines =>
    if continued line then logicalFrom (before ++ body line) lines
    else nonEmpty (cutEnd (before ++ body line)) ++ logicalFrom [] lines

def logicalLines (lines : List Text) : List Text := logicalFrom [] lines

/-- A backslash stands before white space, outside of the comment. -/
def escapes : Text → Bool
  | [] => false
  | c :: sp => c ≠ '#' && (c = '\\' && sp.head?.any isspace || escapes sp)

/-- Nothing is lost: no backslash takes white space with it, a last part that is blank does not
end text with a blank, and the file does not end behind text that is continued. -/
def Joined (before : Text) : List Text → Prop
  | [] => cutEnd before = []
  | line :: lines => escapes line = false ∧
    if continued line then Joined (before ++ body line) lines
    else (cutEnd (body line) = [] → cutEnd before = before) ∧ Joined [] lines

section Lines
variable {line before : Text} {lines : List Text}

variable {sp : Text} {c : Char}

theorem continued_cons (more : c = '\\' → sp ≠ []) :
    continued (c :: sp) = (decide (c ≠ '#') && continued sp) := by
  cases sp with
  | nil => simp [continued, show c ≠ '\\' from fun back => more back rfl]
  | cons d sp => by_cases hash : c = '#' <;> simp [continued, hash, eq_comm]

theorem body_cons (more : c = '\\' → sp ≠ []) :
    body (c :: sp) = if c = '#' then [] else (if isspace c then ' ' else c) :: body sp := by
  unfold body
  rw [continued_cons more]
  by_cases hash : c = '#'
  · simp [hash]
  · cases open_ : continued sp with
    | false => simp [hash]
    | true =>
      obtain ⟨d, sp, rfl⟩ : ∃ d sp', sp = d :: sp' := by
        cases sp with
        | nil => cases open_
        | cons d sp => exact ⟨d, sp, rfl⟩
      simp [hash]

theorem isspace_backslash : isspace '\\' = false := by decide

/-- The loop keeps all of a line but for backslashes before white space. -/
def Keeps (line : Text) (r : Text × Bool) : Prop :=
  r.2 = continued line ∧ (escapes line = false → r.1 = body line) ∧
    r.1.count '\\' + (escapes line).toNat ≤ (body line).count '\\'

theorem Keeps.cons {r : Text × Bool} (h : Keeps sp r) (open_ : continued line = continued sp)
    (more : body line = c :: body sp) (same : escapes line = escapes sp) :
    Keeps line (c :: r.1, r.2) := by
  unfold Keeps
  rw [open_, more, same]
  refine ⟨h.1, fun plain => congrArg (c :: ·) (h.2.1 plain), ?_⟩
  rw [count_cons, count_cons]
  have count := h.2.2
  omega

theorem myLine_keeps (line : Text) : Keeps line (myLine line) := by
  fun_induction myLine line with
  | case1 => exact ⟨rfl, fun _ => rfl, Nat.le_refl _⟩
  | case2 => exact ⟨rfl, fun _ => rfl, Nat.le_refl _⟩
  | case3 c sp blank ih =>
    have ne : c ≠ '#' ∧ c ≠ '\\' := by constructor <;> rintro rfl <;> cases blank
    have more : c = '\\' → sp ≠ [] := fun back => absurd back ne.2
    obtain ⟨open_, -, count⟩ := ih
    unfold Keeps
    rw [continued_cons (by simp), continued_cons more, body_cons (by simp), body_cons more]
    simp [escapes, blank, ne, open_, isspace_backslash]
    omega
  | case4 c sp shown ih =>
    refine ih.cons ?_ ?_ ?_
    · simp [continued_cons]
    · simp [body_cons, isspace_backslash]
    · simp [escapes, shown]
  | case5 sp => simp [Keeps, escapes, continued, body]
  | case6 c sp last pair hash ih =>
    have alone : c ≠ '\\' := by
      rintro rfl
      cases sp with
      | nil => exact last rfl rfl
      | cons d sp => exact pair d sp rfl rfl
    have more : c = '\\' → sp ≠ [] := fun back => absurd back alone
    refine ih.cons ?_ ?_ ?_
    · simp [continued_cons more, hash]
    · simp [body_cons more, hash]
    · simp [escapes, hash, alone]

/-! ### Ends of lines -/

theorem cutEnd_append (a b : Text) :
    cutEnd (a ++ b) = if cutEnd b = [] then cutEnd a else a ++ cutEnd b := by
  simp only [cutEnd, List.rdropWhile, List.reverse_append, List.dropWhile_append, List.isEmpty_iff,
    reverse_eq_nil_iff]
  split <;> simp

theorem count_cutEnd (line : Text) : (cutEnd line).count '\\' = line.count '\\' := by
  induction line using List.reverseRecOn with
  | nil => rfl
  | append_singleton line c ih =>
    rw [cutEnd_append, count_append]
    by_cases blank : c = ' '
    · subst blank
      exact ih
    · have all : cutEnd [c] = [c] := by simp [cutEnd, blank]
      simp [all]

/-! ### The calls -/

/-- The lines of the calls, where `before` has been read. -/
def codeFrom (before : Text) : List Text → List Text
  | [] => []
  | line :: lines =>
    if continued line then codeFrom (before ++ (myLine line).1) lines
    else nonEmpty (before ++ cutEnd (myLine line).1) ++ codeFrom [] lines

theorem extendLine_eq (before line : Text) :
    extendLine (nonEmpty before).head? line =
      (nonEmpty (before ++ if continued line then (myLine line).1
        else cutEnd (myLine line).1)).head? := by
  unfold extendLine
  rw [(myLine_keeps line).1]
  generalize (if continued line then (myLine line).1 else cutEnd (myLine line).1) = kept
  cases before <;> cases kept <;> rfl

theorem getNextLineC_cases (before : Text) (lines : List Text) :
    (getNextLineC (nonEmpty before).head? lines = none ∧ codeFrom before lines = []) ∨
      ∃ line rest, getNextLineC (nonEmpty before).head? lines = some (line, rest) ∧
        codeFrom before lines = line :: codeFrom [] rest ∧ rest.length < lines.length := by
  induction lines generalizing before with
  | nil => exact .inl ⟨rfl, rfl⟩
  | cons line lines ih =>
    rw [getNextLineC, codeFrom, extendLine_eq, (myLine_keeps line).1]
    have shorter : ∀ {rest : List Text}, rest.length < lines.length →
        rest.length < (line :: lines).length := fun lt => Nat.lt_succ_of_lt lt
    cases open_ : continued line with
    | true =>
      simp only [if_true]
      have more := ih (before ++ (myLine line).1)
      cases text : before ++ (myLine line).1 <;> rw [text] at more <;>
        exact more.imp_right fun ⟨line, rest, call, code, lt⟩ =>
          ⟨line, rest, call, code, shorter lt⟩
    | false =>
      simp only [Bool.false_eq_true, if_false]
      cases before ++ cutEnd (myLine line).1 with
      | nil =>
        exact (ih []).imp_right fun ⟨line, rest, call, code, lt⟩ =>
          ⟨line, rest, call, code, shorter lt⟩
      | cons c text => exact .inr ⟨c :: text, lines, rfl, rfl, Nat.lt_succ_self _⟩

theorem getNextLines_eq {fuel : Nat} (enough : lines.length < fuel) :
    getNextLines fuel lines = codeFrom [] lines := by
  induction fuel generalizing lines with
  | zero => cases enough
  | succ fuel ih =>
    rw [getNextLines]
    rcases getNextLineC_cases [] lines with ⟨call, code⟩ | ⟨line, rest, call, code, lt⟩
    · rw [show none = (nonEmpty []).head? from rfl, call, code]
    · rw [show none = (nonEmpty []).head? from rfl, call, code, ← ih (by omega)]

/-! ### The two compared -/

theorem flatten_nonEmpty (line : Text) : (nonEmpty line).flatten = line := by
  cases line <;> simp [nonEmpty]

/-- Every line with a backslash before white space loses one. -/
theorem count_codeFrom {text before : Text} {k : Nat} (lines : List Text)
    (le : text.count '\\' + k ≤ before.count '\\') :
    (codeFrom text lines).flatten.count '\\' + k + (lines.map fun l => (escapes l).toNat).sum ≤
      (logicalFrom before lines).flatten.count '\\' := by
  induction lines generalizing text before k with
  | nil =>
    rw [logicalFrom, flatten_nonEmpty, count_cutEnd]
    exact (Nat.add_le_add_right (Nat.zero_le _) k).trans le
  | cons line lines ih =>
    have count := (myLine_keeps line).2.2
    rw [codeFrom, logicalFrom, map_cons, sum_cons]
    split
    · have rest := @ih (text ++ (myLine line).1) (before ++ body line) (k + (escapes line).toNat)
        (by rw [count_append, count_append]; omega)
      omega
    · have rest := @ih [] [] 0 (Nat.le_refl _)
      rw [flatten_append, flatten_append, flatten_nonEmpty, flatten_nonEmpty,
        count_append, count_append, count_append, count_cutEnd, count_cutEnd,
        count_append]
      omega

theorem cutEnd_of_mem_logical (mem : line ∈ logicalFrom before lines) : cutEnd line = line := by
  have kept : ∀ {text : Text}, line ∈ nonEmpty (cutEnd text) → cutEnd line = line := by
    intro text mem
    unfold nonEmpty at mem
    split at mem
    · cases mem
    · rw [mem_singleton.mp mem]
      exact rdropWhile_idempotent _ _
  induction lines generalizing before with
  | nil => exact kept mem
  | cons first lines ih =>
    rw [logicalFrom] at mem
    split at mem
    · exact ih mem
    · exact (mem_append.mp mem).elim kept ih

theorem codeFrom_eq_iff (before : Text) (lines : List Text) :
    codeFrom before lines = logicalFrom before lines ↔ Joined before lines := by
  induction lines generalizing before with
  | nil => simp [codeFrom, logicalFrom, Joined, nonEmpty]
  | cons line lines ih =>
    cases esc : escapes line with
    | true =>
      refine ⟨fun same => ?_, fun joined => nomatch esc.symm.trans joined.1⟩
      have count := @count_codeFrom before before 0 (line :: lines) (Nat.le_refl _)
      rw [same, map_cons, sum_cons, esc, Bool.toNat_true] at count
      omega
    | false =>
      rw [Joined, codeFrom, logicalFrom, (myLine_keeps line).2.1 esc, cutEnd_append]
      split
      · rw [ih]
        simp [esc]
      · by_cases blank : cutEnd (body line) = []
        · rw [if_pos blank, blank, append_nil]
          by_cases ends : cutEnd before = before
          · rw [ends, append_cancel_left_eq, ih]
            simp [esc]
          · -- the line keeps a blank at its end, which no logical line has
            refine ⟨fun same => absurd ?_ ends, fun h => absurd (h.2.1 rfl) ends⟩
            have some_ : before ≠ [] := fun none_ => ends (none_ ▸ rfl)
            have mem : before ∈ logicalFrom before ([] :: lines) := by
              rw [logicalFrom, show body [] = [] from rfl, append_nil, ← same,
                nonEmpty, if_neg some_]
              exact mem_cons_self
            exact cutEnd_of_mem_logical mem
        · rw [if_neg blank, append_cancel_left_eq, ih]
          simp [esc, blank]

/-- The calls return the logical lines exactly if nothing is lost. -/
theorem getNextLines_logical_iff (lines : List Text) :
    getNextLines (lines.length + 1) lines = logicalLines lines ↔ Joined [] lines := by
  rw [getNextLines_eq (Nat.lt_succ_self _)]
  exact codeFrom_eq_iff [] lines

/-- Text before a continuation at the end of the file is dropped. -/
theorem openText_dropped :
    getNextLines 3 ["a".toList, "b\\".toList] = ["a".toList] ∧
      logicalLines ["a".toList, "b\\".toList] = ["a".toList, "b".toList] := by
  decide +kernel

end Lines

end Jhlava.Conf
