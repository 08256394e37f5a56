import Jhlava.CFormat
import Mathlib.Data.List.DropRight

/-! Words and lines of the event log, from `lib.words.c`: strings in quotes with
the inner quotes doubled, and the lines a log is read by. -/
namespace LogWords
open CValues TextScan List

/-- The loop of `stripQStr` behind the opening quote: a doubled quote stands for
one, a single quote ends the string. -/
def unquote : Text → Option (Text × Text)
  | [] => none
  | '"' :: '"' :: q => (unquote q).map fun (str, rest) => ('"' :: str, rest)
  | '"' :: q => some ([], q)
  | c :: q => (unquote q).map fun (str, rest) => (c :: str, rest)

/-- `stripQStr`: the first string in quotes and the text behind its closing
quote, where the source returns the distance to it; no string is -1. -/
def stripQStr (q : Text) : Option (Text × Text) :=
  match q.dropWhile (· ≠ '"') with
  | [] => none
  | _ :: q => unquote q

/-- The body of a string as `addQStr` writes it. -/
def doubleQuotes (str : Text) : Text := str.flatMap fun c => if c = '"' then ['"', '"'] else [c]

def addQStr (str : Text) : Text := ' ' :: '"' :: doubleQuotes str ++ ['"']

/-- The format ` "%s"`, which writes the string as it is. -/
def rawQStr (str : Text) : Text := ' ' :: '"' :: str ++ ['"']

/-- `subNewLine_`. -/
def subNewLine (instr : Text) : Text := instr.filter (· ≠ '\n')

/-- The characters up to the end of the line, blanks of every kind as ' ', with
the text after it; `none` for the rest when the file ends first. -/
def takeLine : Text → Text × Option Text
  | [] => ([], none)
  | '\n' :: fp => ([], some fp)
  | cin :: fp => ((if isspace cin then ' ' else cin) :: (takeLine fp).1, (takeLine fp).2)

def cutBlanks : Text → Text
  | [] => []
  | c :: line => c :: line.rdropWhile (· == ' ')

/-- `getNextLineD_` without `confFormat`: the next line and the rest of the
file. A last line without its newline counts when more than one of its
characters is kept or it has just one. -/
def getNextLineD (fp : Text) : Option Text × Text :=
  match takeLine fp with
  | (line, some rest) => (some (cutBlanks line), rest)
  | (line, none) =>
    if line.length = 1 ∨ 1 < (cutBlanks line).length then (some (cutBlanks line), [])
    else (none, [])

/-- The number of lines; the last one counts without its newline too. -/
def lineCount : Text → ℕ
  | [] => 0
  | '\n' :: fp => lineCount fp + 1
  | _ :: fp => max 1 (lineCount fp)

theorem lineCount_le_length (fp : Text) : lineCount fp ≤ fp.length := by
  induction fp using lineCount.induct with
  | case1 => exact Nat.le_refl _
  | case2 fp ih =>
    rw [lineCount, length_cons]
    omega
  | case3 c fp inLine ih =>
    rw [lineCount.eq_3 _ _ inLine, length_cons]
    omega

theorem takeLine_rest {fp rest : Text} (h : (takeLine fp).2 = some rest) :
    lineCount rest < lineCount fp := by
  induction fp using takeLine.induct with
  | case1 => simp [takeLine] at h
  | case2 fp =>
    simp only [takeLine, Option.some.injEq] at h
    simp [lineCount, h]
  | case3 cin fp inLine ih =>
    rw [takeLine.eq_3 _ _ inLine] at h
    rw [lineCount.eq_3 _ _ inLine]
    exact (ih h).trans_le (le_max_right ..)

variable {c : Char} {fp rest : Text}

theorem lineCount_pos (c : Char) (fp : Text) : 0 < lineCount (c :: fp) := by
  by_cases newline : c = '\n'
  · rw [newline, lineCount]
    omega
  · rw [lineCount.eq_3 _ _ newline]
    omega

theorem getNextLineD_rest {line : Text} (h : getNextLineD fp = (some line, rest)) :
    lineCount rest < lineCount fp := by
  cases fp with
  | nil => simp [getNextLineD, takeLine, cutBlanks] at h
  | cons c fp =>
    unfold getNextLineD at h
    split at h
    · rename_i taken
      cases h
      exact takeLine_rest (by rw [taken])
    · split at h
      · cases h
        exact lineCount_pos c fp
      · cases h

/-- `getNextLineC_`: the next line that is not all blanks. -/
def getNextLine (fp : Text) : Option Text × Text :=
  match _h : getNextLineD fp with
  | (none, rest) => (none, rest)
  | (some line, rest) => if line.all (· == ' ') then getNextLine rest else (some line, rest)
termination_by lineCount fp
decreasing_by exact getNextLineD_rest _h

theorem getNextLine_rest {line : Text} (h : getNextLine fp = (some line, rest)) :
    lineCount rest < lineCount fp := by
  induction fp using getNextLine.induct with
  | case1 fp r eq =>
    rw [getNextLine] at h
    split at h <;> simp_all
  | case2 fp line' rest' eq blank ih =>
    have shorter := getNextLineD_rest eq
    rw [getNextLine] at h
    split at h
    · simp_all
    · rename_i eq'
      rw [eq] at eq'
      cases eq'
      rw [if_pos blank] at h
      exact (ih h).trans shorter
  | case3 fp line' rest' eq shown =>
    rw [getNextLine] at h
    split at h
    · simp_all
    · rename_i eq'
      rw [eq] at eq'
      cases eq'
      rw [if_neg shown] at h
      cases h
      exact getNextLineD_rest eq

section Quotes

theorem unquote_cons (hc : c ≠ '"') (q : Text) :
    unquote (c :: q) = (unquote q).map fun (str, rest) => (c :: str, rest) := by
  rw [unquote.eq_4]
  · intro q' h
    exact absurd h hc
  · intro h
    exact absurd h hc

variable {t : Text}

theorem unquote_quote (next : t.head? ≠ some '"') : unquote ('"' :: t) = some ([], t) := by
  rw [unquote.eq_3]
  rintro q rfl
  exact next rfl

theorem unquote_doubleQuotes (str : Text) (next : t.head? ≠ some '"') :
    unquote (doubleQuotes str ++ '"' :: t) = some (str, t) := by
  induction str with
  | nil => exact unquote_quote next
  | cons c str ih =>
    rw [doubleQuotes, flatMap_cons, append_assoc]
    by_cases hc : c = '"'
    · rw [if_pos hc, cons_append, cons_append, nil_append, unquote.eq_2, ← doubleQuotes, ih, hc]
      rfl
    · rw [if_neg hc, cons_append, nil_append, unquote_cons hc, ← doubleQuotes, ih]
      rfl

theorem unquote_plain {str : Text} (plain : '"' ∉ str) (next : t.head? ≠ some '"') :
    unquote (str ++ '"' :: t) = some (str, t) := by
  induction str with
  | nil => exact unquote_quote next
  | cons c str ih =>
    obtain ⟨hc, rest⟩ := not_or.mp (mem_cons.not.mp plain)
    rw [cons_append, unquote_cons (Ne.symm hc), ih rest]
    rfl

theorem stripQStr_skip {u : Text} (plain : '"' ∉ u) (q : Text) :
    stripQStr (u ++ '"' :: q) = unquote q := by
  have front : (u ++ '"' :: q).dropWhile (· ≠ '"') = '"' :: q := by
    rw [dropWhile_append_of_pos]
    · rfl
    · intro c hc
      have : c ≠ '"' := by
        rintro rfl
        exact plain hc
      simpa using this
  rw [stripQStr, front]

end Quotes

section Lines

def Printable (c : Char) : Prop := 32 ≤ c.toNat ∧ c.toNat ≤ 126

instance (c : Char) : Decidable (Printable c) := inferInstanceAs (Decidable (_ ∧ _))

/-- A text that is read back as a line: it starts and ends with something to
show. -/
structure IsLine (x : Text) : Prop where
  printable : ∀ c ∈ x, Printable c
  first : ∃ c rest, x = c :: rest ∧ rest ≠ [] ∧ c ≠ ' '
  last : x.getLast? ≠ some ' '

theorem Printable.isspace (h : Printable c) : (if isspace c then ' ' else c) = c := by
  obtain ⟨lo, -⟩ := h
  split
  · rename_i space
    simp only [CValues.isspace, Bool.or_eq_true, beq_iff_eq, Bool.and_eq_true,
      decide_eq_true_eq] at space
    rcases space with rfl | ⟨-, hi⟩
    · rfl
    · omega
  · rfl

theorem Printable.ne_newline (h : Printable c) : c ≠ '\n' := by
  rintro rfl
  exact absurd h (by decide)

theorem takeLine_cons (h : Printable c) (fp : Text) :
    takeLine (c :: fp) = (c :: (takeLine fp).1, (takeLine fp).2) := by
  rw [takeLine.eq_3 _ _ (fun eq => absurd eq h.ne_newline), h.isspace]

variable {x : Text}

theorem takeLine_append (h : ∀ c ∈ x, Printable c) (fp : Text) :
    takeLine (x ++ fp) = (x ++ (takeLine fp).1, (takeLine fp).2) := by
  induction x with
  | nil => rfl
  | cons c x ih =>
    rw [cons_append, takeLine_cons (h c mem_cons_self), ih fun c hc => h c (mem_cons_of_mem _ hc)]
    rfl

theorem lineCount_append (h : ∀ c ∈ x, Printable c) (fp : Text) :
    max 1 (lineCount (x ++ fp)) = max 1 (lineCount fp) := by
  induction x with
  | nil => rfl
  | cons c x ih =>
    have inLine : c = '\n' → False := (h c mem_cons_self).ne_newline
    rw [cons_append, lineCount.eq_3 _ _ inLine, ← ih fun c hc => h c (mem_cons_of_mem _ hc)]
    simp

section

variable (h : IsLine x)
include h

theorem cutBlanks_append {pad : Text} (blanks : ∀ c ∈ pad, c = ' ') : cutBlanks (x ++ pad) = x := by
  obtain ⟨c, rest, rfl, some_rest, -⟩ := h.first
  have last := h.last
  rw [List.getLast?_cons_of_ne_nil some_rest] at last
  rw [cons_append, cutBlanks, List.rdropWhile, reverse_append, dropWhile_append_of_pos]
  · rw [← List.rdropWhile, rdropWhile_eq_self_iff.mpr]
    intro _ blank
    apply last
    rw [List.getLast?_eq_some_getLast some_rest]
    exact beq_iff_eq.mp blank
  · intro c hc
    rw [blanks c (mem_reverse.mp hc)]
    rfl

theorem IsLine.not_blank : x.all (· == ' ') = false := by
  obtain ⟨c, rest, rfl, -, hc⟩ := h.first
  simp [hc]

theorem getNextLine_of_read (read : getNextLineD fp = (some x, rest)) :
    getNextLine fp = (some x, rest) := by
  rw [getNextLine]
  split
  · rename_i eq
    rw [read] at eq
    cases eq
  · rename_i eq
    rw [read] at eq
    cases eq
    rw [if_neg (by simp [h.not_blank])]

theorem getNextLine_line {pad : Text} (blanks : ∀ c ∈ pad, c = ' ') (rest : Text) :
    getNextLine (x ++ pad ++ '\n' :: rest) = (some x, rest) := by
  have shown : ∀ c ∈ x ++ pad, Printable c := by
    intro c hc
    rcases mem_append.mp hc with hx | hp
    · exact h.printable c hx
    · rw [blanks c hp]
      decide
  apply getNextLine_of_read h
  unfold getNextLineD
  rw [takeLine_append shown]
  simp only [takeLine, append_nil, cutBlanks_append h blanks]

theorem getNextLine_end : getNextLine x = (some x, []) := by
  obtain ⟨c, rest, shape, some_rest, -⟩ := h.first
  have size : 1 < x.length := by
    have := length_pos_iff.mpr some_rest
    rw [shape, length_cons]
    omega
  have cut : cutBlanks x = x := by
    have uncut : cutBlanks (x ++ []) = x := cutBlanks_append h (by simp)
    rwa [append_nil] at uncut
  have taken := takeLine_append h.printable []
  rw [append_nil] at taken
  apply getNextLine_of_read h
  unfold getNextLineD
  rw [taken]
  simp only [takeLine, append_nil, cut]
  rw [if_pos (Or.inr size)]

end

theorem getNextLine_nil : getNextLine [] = (none, []) := by
  rw [getNextLine]
  rfl

end Lines

end LogWords
