import Mathlib.Data.List.Chain
import Jhlava.Requeue

/-! How the texts of `REQUEUE_EXIT_VALUES` are read. The text is cut at its blanks into chunks;
of a chunk only the value behind its last opening parenthesis is read, and what stands behind a
closing one is skipped. -/
namespace Jhlava.Requeue
open CValues TextScan List Option
open Jhlava.Conf (getNextWord)
open Jhlava.Dep (isint)

/-! ### Texts -/

/-- The digits of an exit value. -/
structure ExitText where
  digits : Text
  nonempty : digits ≠ []
  isDigit : ∀ c ∈ digits, c.isDigit = true
  small : Nat.ofDigitChars 10 digits 0 < 256

def ExitText.value (x : ExitText) : Nat := Nat.ofDigitChars 10 x.digits 0

inductive Token where
  | int (x : ExitText)
  | exclude
  | left
  | right

def Token.text : Token → Text
  | .int x => x.digits
  | .exclude => "EXCLUDE".toList
  | .left => ['(']
  | .right => [')']

def Token.isLeft : Token → Bool
  | .left => true
  | _ => false

def Token.isRight : Token → Bool
  | .right => true
  | _ => false

/-- Where in a text a token stands: outside the groups, behind an `EXCLUDE` or in its group. -/
inductive Place where
  | outside
  | opened
  | inside
  deriving DecidableEq

def Place.next : Place → Token → Option Place
  | .outside, .int _ => some .outside
  | .outside, .exclude => some .opened
  | .opened, .left => some .inside
  | .inside, .int _ => some .inside
  | .inside, .right => some .outside
  | _, _ => none

def Place.run (p : Place) (tokens : List Token) : Option Place := tokens.foldlM Place.next p

def Joins : Token → Token → Prop
  | .int _, .int _ | .int _, .exclude => False
  | _, _ => True

def chunkText (chunk : List Token) : Text := chunk.flatMap Token.text

abbrev Parts := List (List Token × Text)

def partsText (parts : Parts) : Text := parts.flatMap fun p => chunkText p.1 ++ p.2

/-- The chunks of a text are made of tokens that may stand together, and have blanks between
them. -/
structure WellParted (parts : Parts) : Prop where
  blanks : ∀ p ∈ parts, ∀ c ∈ p.2, isspace c = true
  apart : parts.IsChain fun p _ => p.2 ≠ []
  joined : ∀ p ∈ parts, p.1 ≠ [] ∧ p.1.IsChain Joins

/-- A text made of exit values and `EXCLUDE` groups, with any blanks or none around the
parentheses. -/
structure Spelling where
  lead : Text
  parts : Parts
  leadBlanks : ∀ c ∈ lead, isspace c = true
  wellParted : WellParted parts
  grammar : Place.run .outside (parts.flatMap Prod.fst) = some .outside

def Spelling.text (s : Spelling) : Text := s.lead ++ partsText s.parts

def sides : Place → List Token → List (Nat × RqeType)
  | _, [] => []
  | p, .int x :: tokens => (x.value, if p = .inside then .exclude else .normal) :: sides p tokens
  | _, .exclude :: tokens => sides .opened tokens
  | _, .left :: tokens => sides .inside tokens
  | _, .right :: tokens => sides .outside tokens

def Spelling.occurrences (s : Spelling) : List (Nat × RqeType) :=
  sides .outside (s.parts.flatMap Prod.fst)

def sideOf (occurrences : List (Nat × RqeType)) (v : Int) : Option RqeType :=
  (occurrences.find? fun e => (e.1 : Int) = v).map Prod.snd

/-! ### What is read of a chunk -/

def readPart (chunk : List Token) : List Token := chunk.rtakeWhile fun t => !t.isLeft

def leadMode (mode : RqeType) : List Token → RqeType
  | .exclude :: _ => .exclude
  | .right :: _ => .normal
  | _ => mode

def filedAs (mode : RqeType) (chunk : List Token) : RqeType :=
  if chunk.any Token.isLeft then leadMode mode chunk else mode

def modeBehind (mode : RqeType) (chunk : List Token) : RqeType :=
  if (readPart chunk).any Token.isRight then .normal else filedAs mode chunk

def filedValue (mode : RqeType) : List Token → List (Nat × RqeType)
  | .int x :: _ => [(x.value, mode)]
  | _ => []

def filed : RqeType → List (List Token) → List (Nat × RqeType)
  | _, [] => []
  | mode, chunk :: chunks =>
    filedValue (filedAs mode chunk) (readPart chunk) ++ filed (modeBehind mode chunk) chunks

def Spelling.filed (s : Spelling) : List (Nat × RqeType) :=
  Requeue.filed .normal (s.parts.map Prod.fst)

/-! ### The table -/

def Holds (st : ParseState) (values : List (Nat × RqeType)) : Prop :=
  ∀ v, (st.rquest.find? fun entry => entry.value = v).map RequeueEStruct.type = sideOf values v

theorem sideOf_append (l l' : List (Nat × RqeType)) (v : Int) :
    sideOf (l ++ l') v = (sideOf l v).or (sideOf l' v) := by
  unfold sideOf
  rw [List.find?_append]
  cases l.find? fun e => (e.1 : Int) = v <;> rfl

theorem ExitText.strtol_append (x : ExitText) {t : Text} (stop : ∀ c ∈ t.head?, c.isDigit = false) :
    strtol (x.digits ++ t) = ⟨x.value, t, false⟩ := by
  obtain ⟨d, ds, shape⟩ := exists_cons_of_ne_nil x.nonempty
  have small := x.small
  have digits := x.isDigit
  unfold ExitText.value
  rw [shape] at small digits ⊢
  exact CFormat.strtol_digits digits stop (lt_trans small (by decide))

theorem ExitText.toInt32_value (x : ExitText) : toInt32 x.value = x.value := by
  have small : x.value < 256 := x.small
  exact toInt32_of_bounds (by omega) (by omega)

theorem ExitText.isint (x : ExitText) : Dep.isint x.digits = true := by
  have read := x.strtol_append (t := []) (by simp)
  rw [append_nil] at read
  have small : x.value < 256 := x.small
  rw [Dep.isint, if_neg (by simp [x.nonempty]), read]
  simp only [x.toInt32_value]
  simp
  omega

theorem ExitText.myAtoi (x : ExitText) : Requeue.myAtoi x.digits 256 (-1) = x.value := by
  have read := x.strtol_append (t := []) (by simp)
  rw [append_nil] at read
  have small : x.value < 256 := x.small
  rw [Requeue.myAtoi, x.isint, atoi, read]
  simp only [x.toInt32_value]
  rw [if_neg (by simp), if_neg (by omega)]

theorem sideOf_singleton (n : Nat) (type : RqeType) (v : Int) :
    sideOf [(n, type)] v = if (n : Int) = v then some type else none := by
  unfold sideOf
  by_cases same : (n : Int) = v
  · simp [same]
  · simp [same]

variable {values : List (Nat × RqeType)}

theorem Holds.treatWord {st : ParseState} (holds : Holds st values) (x : ExitText) :
    (treatWord st x.digits).mode = st.mode ∧
      Holds (treatWord st x.digits) (values ++ [(x.value, st.mode)]) := by
  have small : x.value < 256 := x.small
  have fits : (x.value : Int) ≠ infinitInt := by unfold infinitInt; omega
  unfold Requeue.treatWord
  rw [if_pos x.isint, x.myAtoi]
  rw [if_pos fits, fillStruct]
  by_cases known : (st.rquest.any fun entry => entry.value = x.value) = true
  · rw [if_pos known]
    refine ⟨rfl, fun v => ?_⟩
    rw [sideOf_append, sideOf_singleton, ← holds v]
    by_cases same : (x.value : Int) = v
    · obtain ⟨entry, mem, value⟩ := any_eq_true.mp known
      have found : (st.rquest.find? fun entry => entry.value = v).isSome = true :=
        List.find?_isSome.mpr ⟨entry, mem, same ▸ value⟩
      obtain ⟨first, eq⟩ := isSome_iff_exists.mp found
      rw [eq]
      rfl
    · rw [if_neg same, or_none]
  · rw [if_neg known]
    refine ⟨rfl, fun v => ?_⟩
    rw [sideOf_append, sideOf_singleton, ← holds v]
    rw [List.find?_append, map_or]
    by_cases same : (x.value : Int) = v
    · simp [same]
    · simp [same]

theorem Holds.matchExitvalue {st : ParseState} (holds : Holds st values) (v : Int) :
    matchExitvalue st.rquest v = ((sideOf values v).map RqeType.code).getD (-1) := by
  rw [← holds v, Requeue.matchExitvalue]
  cases st.rquest.find? fun entry => entry.value = v <;> rfl

/-! ### Reading -/

def Reads (line rest : Text) (mode mode' : RqeType) (values : List (Nat × RqeType)) : Prop :=
  ∃ words, (∀ later, Splits rest later → Splits line (words ++ later)) ∧
    ∀ st before, st.mode = mode → Holds st before →
      (words.foldl treatWord st).mode = mode' ∧ Holds (words.foldl treatWord st) (before ++ values)

section Reads

variable {line rest rest' : Text} {mode mode' mode'' : RqeType}
    {values values' : List (Nat × RqeType)}

theorem Reads.nothing : Reads line line mode mode [] := by
  refine ⟨[], fun later splits => splits, fun st before same holds => ⟨same, ?_⟩⟩
  rw [append_nil]
  exact holds

theorem Reads.trans (first : Reads line rest mode mode' values)
    (second : Reads rest rest' mode' mode'' values') :
    Reads line rest' mode mode'' (values ++ values') := by
  obtain ⟨words, splits, treat⟩ := first
  obtain ⟨words', splits', treat'⟩ := second
  refine ⟨words ++ words', fun later ends => ?_, fun st before same holds => ?_⟩
  · rw [append_assoc]
    exact splits _ (splits' later ends)
  · obtain ⟨same', holds'⟩ := treat st before same holds
    rw [foldl_append, ← append_assoc]
    exact treat' _ _ same' holds'

theorem Reads.value {x : ExitText} (next : aGetNextWord line = (some x.digits, rest)) :
    Reads line rest mode mode [(x.value, mode)] := by
  refine ⟨[x.digits], fun later splits => .word next splits, fun st before same holds => ?_⟩
  obtain ⟨same', holds'⟩ := holds.treatWord x
  rw [same] at same' holds'
  exact ⟨same', holds'⟩

theorem Reads.mark {word : Text} (next : aGetNextWord line = (some word, rest))
    (treat : ∀ st, st.mode = mode → treatWord st word = { st with mode := mode' }) :
    Reads line rest mode mode' [] := by
  refine ⟨[word], fun later splits => .word next splits, fun st before same holds => ?_⟩
  rw [foldl_cons, treat st same, append_nil]
  exact ⟨rfl, holds⟩

end Reads

/-! ### Words -/

def Ends (t : Text) : Prop := ∀ c ∈ t.head?, isspace c = true

variable {chunk : List Token} {gap line rest : Text}

theorem getNextWord_append {word : Text} (nonempty : word ≠ [])
    (plain : ∀ c ∈ word, isspace c = false) (ends : Ends rest) :
    getNextWord (word ++ rest) = (some word, rest) := by
  obtain ⟨c, cs, rfl⟩ := exists_cons_of_ne_nil nonempty
  have first : ¬ isspace c = true := by
    rw [plain c mem_cons_self]
    exact Bool.false_ne_true
  have all : ∀ x ∈ c :: cs, (!isspace x) = true := fun x mem => by rw [plain x mem]; rfl
  unfold getNextWord
  rw [cons_append, dropWhile_cons_of_neg first, ← cons_append]
  dsimp only
  rw [takeWhile_append_of_pos all, dropWhile_append_of_pos all]
  cases rest with
  | nil => simp
  | cons b rest =>
    have blank : isspace b = true := ends b rfl
    simp [blank]

theorem ends_append (blanks : ∀ c ∈ gap, isspace c = true) (ends : gap = [] → Ends rest) :
    Ends (gap ++ rest) := by
  cases gap with
  | nil => exact ends rfl
  | cons b gap =>
    rintro c ⟨⟩
    exact blanks b mem_cons_self

theorem Token.text_plain (t : Token) : t.text ≠ [] ∧ ∀ c ∈ t.text, isspace c = false := by
  cases t with
  | int x => exact ⟨x.nonempty, fun c mem => CFormat.isspace_of_isDigit (x.isDigit c mem)⟩
  | exclude => simp [Token.text, isspace]
  | left => simp [Token.text, isspace]
  | right => simp [Token.text, isspace]

theorem chunkText_append (chunk chunk' : List Token) :
    chunkText (chunk ++ chunk') = chunkText chunk ++ chunkText chunk' := flatMap_append

theorem chunkText_plain (chunk : List Token) : ∀ c ∈ chunkText chunk, isspace c = false := by
  intro c mem
  obtain ⟨t, -, inside⟩ := mem_flatMap.mp mem
  exact t.text_plain.2 c inside

theorem chunkText_ne_nil (nonempty : chunk ≠ []) : chunkText chunk ≠ [] := by
  obtain ⟨t, chunk, rfl⟩ := exists_cons_of_ne_nil nonempty
  exact append_ne_nil_of_left_ne_nil t.text_plain.1 _

theorem Token.mem_text (t : Token) :
    ('(' ∈ t.text ↔ t.isLeft = true) ∧ (')' ∈ t.text ↔ t.isRight = true) := by
  cases t with
  | int x =>
    exact ⟨iff_of_false (fun mem => by cases x.isDigit _ mem) Bool.false_ne_true,
      iff_of_false (fun mem => by cases x.isDigit _ mem) Bool.false_ne_true⟩
  | _ => decide

theorem left_mem_chunkText (chunk : List Token) :
    '(' ∈ chunkText chunk ↔ chunk.any Token.isLeft = true := by
  simp [chunkText, Token.mem_text]

theorem right_mem_chunkText (chunk : List Token) :
    ')' ∈ chunkText chunk ↔ chunk.any Token.isRight = true := by
  simp [chunkText, Token.mem_text]

/-! ### The calls of `a_getNextWord_` -/

theorem getNextWord_chunk (nonempty : chunk ≠ []) (ends : Ends rest) :
    getNextWord (chunkText chunk ++ rest) = (some (chunkText chunk), rest) :=
  getNextWord_append (chunkText_ne_nil nonempty) (chunkText_plain chunk) ends

theorem aGetNextWord_left {before middle behind : List Token}
    (first : chunk = before ++ .left :: middle) (last : chunk = behind ++ .left :: readPart chunk)
    (early : before.any Token.isLeft = false) (late : (readPart chunk).any Token.isLeft = false)
    (ends : Ends rest) :
    aGetNextWord (chunkText chunk ++ rest) =
      (some (chunkText before ++ ['(']), chunkText (readPart chunk) ++ rest) := by
  have nonempty : chunk ≠ [] := by
    rw [first]
    simp
  have none_ : ∀ {l : List Token}, l.any Token.isLeft = false → '(' ∉ chunkText l := by
    intro l none_ mem
    rw [(left_mem_chunkText l).mp mem] at none_
    cases none_
  have word : (chunkText chunk).takeWhile (· ≠ '(') = chunkText before := by
    rw [first, chunkText_append]
    exact takeWhile_append_cons (none_ early) _
  have line : (chunkText chunk).rtakeWhile (· ≠ '(') = chunkText (readPart chunk) := by
    have split := congrArg chunkText last
    rw [chunkText_append] at split
    rw [split]
    exact behind_last _ (none_ late)
  have left : (chunkText chunk).contains '(' = true := by
    refine List.contains_iff_mem.mpr ((left_mem_chunkText chunk).mpr ?_)
    rw [first]
    simp [Token.isLeft]
  rw [aGetNextWord, getNextWord_chunk nonempty ends]
  dsimp only
  rw [if_pos left, word, line]

theorem contains_left (plain : chunk.any Token.isLeft = false) :
    ¬ (chunkText chunk).contains '(' = true := by
  intro mem
  rw [(left_mem_chunkText chunk).mp (List.contains_iff_mem.mp mem)] at plain
  cases plain

theorem aGetNextWord_whole (nonempty : chunk ≠ []) (plain : chunk.any Token.isLeft = false)
    (ends : Ends rest)
    (whole : chunk.any Token.isRight = false ∨ (chunkText chunk).head? = some ')') :
    aGetNextWord (chunkText chunk ++ rest) = (some (chunkText chunk), rest) := by
  rw [aGetNextWord, getNextWord_chunk nonempty ends]
  dsimp only
  rw [if_neg (contains_left plain), if_neg]
  intro cut
  obtain ⟨right, inner⟩ := (Bool.and_eq_true _ _).mp cut
  rcases whole with none_ | head
  · rw [(right_mem_chunkText chunk).mp (List.contains_iff_mem.mp right)] at none_
    cases none_
  · exact of_decide_eq_true inner head

theorem aGetNextWord_right {x : ExitText} {behind : List Token}
    (plain : behind.any Token.isLeft = false) (last : behind.any Token.isRight = false)
    (ends : Ends rest) :
    aGetNextWord (chunkText (.int x :: .right :: behind) ++ rest) =
      (some x.digits, chunkText (.right :: behind) ++ rest) := by
  have text : chunkText (.int x :: .right :: behind) = x.digits ++ ')' :: chunkText behind := rfl
  have away : ')' ∉ x.digits := fun mem => by cases x.isDigit _ mem
  have none_ : ')' ∉ chunkText behind := by
    intro mem
    rw [(right_mem_chunkText behind).mp mem] at last
    cases last
  have cut : ((chunkText (.int x :: .right :: behind)).contains ')' &&
      (chunkText (.int x :: .right :: behind)).head? ≠ some ')') = true := by
    rw [text]
    obtain ⟨d, ds, shape⟩ := exists_cons_of_ne_nil x.nonempty
    rw [shape] at away ⊢
    have other : d ≠ ')' := by
      rintro rfl
      exact away mem_cons_self
    simp [other]
  have digits : x.digits.rdropWhile isspace = x.digits := by
    refine rdropWhile_eq_self_iff.mpr fun nonempty => ?_
    rw [CFormat.isspace_of_isDigit (x.isDigit _ (getLast_mem nonempty))]
    exact Bool.false_ne_true
  rw [aGetNextWord, getNextWord_chunk (cons_ne_nil _ _) ends]
  dsimp only
  rw [if_neg (contains_left (by simpa [Token.isLeft] using plain)), if_pos cut, text,
    takeWhile_append_cons away, behind_last _ none_, digits]
  rfl

/-! ### The words of a chunk -/

theorem treatWord_right (st : ParseState) (t : Text) :
    treatWord st (')' :: t) = { st with mode := .normal } := by
  rfl

theorem toLower_of_isDigit {c : Char} (digit : c.isDigit = true) : c.toLower = c := by
  have upper : ¬ (c.val ≥ 'A'.val ∧ c.val ≤ 'Z'.val) := by
    simp only [Char.isDigit, Bool.and_eq_true, decide_eq_true_eq] at digit
    intro range
    have high : c.toNat ≤ 57 := digit.2
    have low : 65 ≤ c.toNat := range.1
    omega
  unfold Char.toLower
  rw [dif_neg upper]

theorem treatWord_digits (st : ParseState) (x : ExitText) (t : Text) :
    treatWord st (x.digits ++ ')' :: t) = st := by
  have read := x.strtol_append (t := ')' :: t) (by simp)
  have noInt : isint (x.digits ++ ')' :: t) = false := by
    rw [isint, read]
    simp
  obtain ⟨d, ds, shape⟩ := exists_cons_of_ne_nil x.nonempty
  have digit : d.isDigit = true := x.isDigit d (shape ▸ mem_cons_self)
  have other : opensExclude (x.digits ++ ')' :: t) = false := by
    rw [shape, opensExclude, cons_append, take_succ_cons]
    refine beq_eq_false_iff_ne.mpr fun same => ?_
    have lower := (List.cons.inj same).1
    rw [toLower_of_isDigit digit] at lower
    rw [lower] at digit
    cases digit
  have head : (x.digits ++ ')' :: t).head? ≠ some ')' := by
    rw [shape]
    rintro ⟨⟩
    cases digit
  rw [treatWord, noInt, other, if_neg Bool.false_ne_true, if_neg Bool.false_ne_true, if_neg head]

theorem treatWord_left (st : ParseState) : treatWord st ['('] = st := rfl

theorem treatWord_exclude (st : ParseState) :
    treatWord st "EXCLUDE(".toList = { st with mode := .exclude } := rfl

theorem treatWord_keyword (st : ParseState) : treatWord st "EXCLUDE".toList = st := rfl

section Chunks

variable {p q : Place} {chunk : List Token}

section

variable (plain : chunk.any Token.isLeft = false)
include plain

theorem behind_right (run : Place.run .outside chunk = some q)
    (joined : (Token.right :: chunk).IsChain Joins) : chunk.any Token.isRight = false := by
  cases chunk with
  | nil => rfl
  | cons t chunk =>
    cases t with
    | int x =>
      cases chunk with
      | nil => rfl
      | cons t chunk =>
        cases t with
        | int y => simp [Joins] at joined
        | exclude => simp [Joins] at joined
        | left => cases plain
        | right => cases run
    | exclude =>
      cases chunk with
      | nil => rfl
      | cons t chunk =>
        cases t with
        | left => cases plain
        | int y => cases run
        | exclude => cases run
        | right => cases run
    | left => cases plain
    | right => cases run

theorem part_cases (run : Place.run p chunk = some q) (joined : chunk.IsChain Joins) :
    chunk = [] ∨ chunk = [.exclude] ∨ (∃ x, chunk = [.int x]) ∨
      (∃ behind, chunk = .right :: behind ∧ behind.any Token.isLeft = false ∧
        behind.any Token.isRight = false) ∨
      ∃ x behind, chunk = .int x :: .right :: behind ∧ behind.any Token.isLeft = false ∧
        behind.any Token.isRight = false := by
  cases chunk with
  | nil => exact Or.inl rfl
  | cons t chunk =>
    cases t with
    | left => cases plain
    | exclude =>
      cases chunk with
      | nil => exact Or.inr (Or.inl rfl)
      | cons t chunk =>
        cases p with
        | outside => cases t <;> first | cases plain | cases run
        | opened => cases run
        | inside => cases run
    | right =>
      cases p with
      | inside =>
        refine Or.inr (Or.inr (Or.inr (Or.inl ⟨chunk, rfl, plain, ?_⟩)))
        exact behind_right plain run joined
      | outside => cases run
      | opened => cases run
    | int x =>
      cases chunk with
      | nil => exact Or.inr (Or.inr (Or.inl ⟨x, rfl⟩))
      | cons t chunk =>
        cases t with
        | int y => simp [Joins] at joined
        | exclude => simp [Joins] at joined
        | left => cases plain
        | right =>
          cases p with
          | inside =>
            refine Or.inr (Or.inr (Or.inr (Or.inr ⟨x, chunk, rfl, plain, ?_⟩)))
            exact behind_right plain run joined.of_cons
          | outside => cases run
          | opened => cases run

theorem lead_cases (run : Place.run p chunk = some .opened) (joined : chunk.IsChain Joins) :
    chunk = [] ∨ chunk = [.exclude] ∨ (∃ behind, chunk = .right :: behind) ∨
      ∃ x behind, chunk = .int x :: .right :: behind := by
  rcases part_cases plain run joined with rfl | rfl | ⟨x, rfl⟩ | ⟨behind, rfl, -⟩ |
    ⟨x, behind, rfl, -⟩
  · exact Or.inl rfl
  · exact Or.inr (Or.inl rfl)
  · cases p <;> cases run
  · exact Or.inr (Or.inr (Or.inl ⟨behind, rfl⟩))
  · exact Or.inr (Or.inr (Or.inr ⟨x, behind, rfl⟩))

end

variable {rest : Text} (mode : RqeType)

theorem reads_part (run : Place.run p chunk = some q) (joined : chunk.IsChain Joins)
    (plain : chunk.any Token.isLeft = false) (ends : Ends rest) :
    Reads (chunkText chunk ++ rest) rest mode
      (if chunk.any Token.isRight then .normal else mode) (filedValue mode chunk) := by
  rcases part_cases plain run joined with rfl | rfl | ⟨x, rfl⟩ | ⟨behind, rfl, left, -⟩ |
    ⟨x, behind, rfl, left, right⟩
  · exact Reads.nothing
  · refine Reads.mark (aGetNextWord_whole (cons_ne_nil _ _) plain ends (Or.inl rfl)) ?_
    rintro st rfl
    exact treatWord_keyword st
  · have whole := aGetNextWord_whole (cons_ne_nil _ _) plain ends (Or.inl rfl)
    have text : chunkText [.int x] = x.digits := append_nil _
    rw [text] at whole ⊢
    exact Reads.value whole
  · refine Reads.mark (aGetNextWord_whole (cons_ne_nil _ _) plain ends (Or.inr rfl)) ?_
    intro st _
    exact treatWord_right st _
  · have second : Reads (chunkText (.right :: behind) ++ rest) rest mode .normal [] :=
      Reads.mark (aGetNextWord_whole (cons_ne_nil _ _) left ends (Or.inr rfl))
        fun st _ => treatWord_right st _
    exact (Reads.value (aGetNextWord_right left right ends)).trans second

theorem run_append (before behind : List Token) :
    Place.run p (before ++ behind) = (Place.run p before).bind fun p => Place.run p behind :=
  foldlM_append

theorem opened_of_left (run : Place.run p (.left :: chunk) = some q) :
    p = .opened ∧ Place.run .inside chunk = some q := by
  cases p with
  | opened => exact ⟨rfl, run⟩
  | outside => cases run
  | inside => cases run

theorem reads_lead {before : List Token} (run : Place.run p before = some .opened)
    (joined : before.IsChain Joins) (plain : before.any Token.isLeft = false)
    (first : ∃ middle, chunk = before ++ .left :: middle)
    (next : aGetNextWord line = (some (chunkText before ++ ['(']), rest)) :
    Reads line rest mode (filedAs mode chunk) [] := by
  obtain ⟨middle, rfl⟩ := first
  have left : (before ++ .left :: middle).any Token.isLeft = true := by simp [Token.isLeft]
  rw [filedAs, if_pos left]
  rcases lead_cases plain run joined with rfl | rfl | ⟨behind, rfl⟩ | ⟨x, behind, rfl⟩
  · refine Reads.mark next ?_
    rintro st rfl
    exact treatWord_left st
  · exact Reads.mark next fun st _ => treatWord_exclude st
  · exact Reads.mark next fun st _ => treatWord_right st _
  · refine Reads.mark next ?_
    rintro st rfl
    have word : chunkText (.int x :: .right :: behind) ++ ['('] =
        x.digits ++ ')' :: (chunkText behind ++ ['(']) := List.append_assoc _ _ _
    rw [word]
    exact treatWord_digits st x _

theorem readPart_of_plain (plain : chunk.any Token.isLeft = false) : readPart chunk = chunk := by
  refine rtakeWhile_eq_self_iff.mpr fun t mem => ?_
  cases left : t.isLeft with
  | false => rfl
  | true => exact absurd left (by simpa using any_eq_false.mp plain t mem)

theorem exists_left (left : chunk.any Token.isLeft = true) :
    (∃ before middle, chunk = before ++ .left :: middle ∧ before.any Token.isLeft = false) ∧
      ∃ behind, chunk = behind ++ .left :: readPart chunk ∧
        (readPart chunk).any Token.isLeft = false := by
  have other : ∀ l : List Token, .left ∉ l → ∀ t ∈ l, t.isLeft = false := by
    intro l none_ t mem
    cases t with
    | left => exact absurd mem none_
    | int x => rfl
    | exclude => rfl
    | right => rfl
  have plain : ∀ l : List Token, .left ∉ l → l.any Token.isLeft = false := fun l none_ =>
    any_eq_false.mpr fun t mem => by simp [other l none_ t mem]
  have mem : .left ∈ chunk := by
    obtain ⟨t, mem, isLeft⟩ := any_eq_true.mp left
    cases t with
    | left => exact mem
    | int x => cases isLeft
    | exclude => cases isLeft
    | right => cases isLeft
  refine ⟨?_, ?_⟩
  · obtain ⟨before, middle, eq, first⟩ := eq_append_cons_of_mem mem
    exact ⟨before, middle, eq, plain before first⟩
  · obtain ⟨before, behind, rfl, last⟩ := exists_last mem
    have part : readPart (before ++ .left :: behind) = behind :=
      rtakeWhile_append_cons before rfl fun t mem => by rw [other behind last t mem]; rfl
    rw [part]
    exact ⟨before, rfl, plain behind last⟩

theorem reads_chunk (run : Place.run p chunk = some q) (joined : chunk.IsChain Joins)
    (ends : Ends rest) :
    Reads (chunkText chunk ++ rest) rest mode (modeBehind mode chunk)
      (filedValue (filedAs mode chunk) (readPart chunk)) := by
  cases left : chunk.any Token.isLeft with
  | false =>
    have same : filedAs mode chunk = mode := by rw [filedAs, left]; rfl
    rw [modeBehind, readPart_of_plain left, same]
    exact reads_part mode run joined left ends
  | true =>
    obtain ⟨⟨before, middle, first, early⟩, behind, last, late⟩ := exists_left left
    have next := aGetNextWord_left first last early late ends
    have lead : Reads (chunkText chunk ++ rest) (chunkText (readPart chunk) ++ rest) mode
        (filedAs mode chunk) [] := by
      rw [first, run_append] at run
      obtain ⟨p', run, after⟩ := bind_eq_some_iff.mp run
      obtain ⟨rfl, -⟩ := opened_of_left after
      rw [first] at joined
      exact reads_lead mode run (isChain_append.mp joined).1 early ⟨middle, first⟩ next
    have part : Reads (chunkText (readPart chunk) ++ rest) rest (filedAs mode chunk)
        (modeBehind mode chunk) (filedValue (filedAs mode chunk) (readPart chunk)) := by
      rw [last, run_append] at run
      obtain ⟨p', -, after⟩ := bind_eq_some_iff.mp run
      obtain ⟨rfl, run⟩ := opened_of_left after
      rw [last] at joined
      exact reads_part _ run (isChain_append.mp joined).2.1.of_cons late ends
    exact lead.trans part

end Chunks

theorem splits_blanks (blanks : ∀ c ∈ gap, isspace c = true) {words : List Text}
    (splits : Splits line words) : Splits (gap ++ line) words := by
  have same : aGetNextWord (gap ++ line) = aGetNextWord line := by
    unfold aGetNextWord getNextWord
    rw [dropWhile_append_of_pos blanks]
  cases splits with
  | stop ends => exact .stop (same.trans ends)
  | word next later => exact .word (same.trans next) later

theorem reads_blanks (blanks : ∀ c ∈ gap, isspace c = true) (mode : RqeType) :
    Reads (gap ++ line) line mode mode [] := by
  refine ⟨[], fun later splits => splits_blanks blanks splits, fun st before same holds =>
    ⟨same, ?_⟩⟩
  rw [append_nil]
  exact holds

theorem reads_parts {parts : Parts} {p q : Place} (wellParted : WellParted parts)
    (run : Place.run p (parts.flatMap Prod.fst) = some q) (mode : RqeType) :
    ∃ mode', Reads (partsText parts) [] mode mode' (filed mode (parts.map Prod.fst)) := by
  induction parts generalizing p mode with
  | nil => exact ⟨mode, Reads.nothing⟩
  | cons part parts ih =>
    obtain ⟨chunk, gap⟩ := part
    rw [flatMap_cons, run_append] at run
    obtain ⟨p', run, later⟩ := bind_eq_some_iff.mp run
    obtain ⟨blanks, blanks'⟩ := forall_mem_cons.mp wellParted.blanks
    obtain ⟨⟨-, joined⟩, joined'⟩ := forall_mem_cons.mp wellParted.joined
    obtain ⟨mode', rest⟩ := ih ⟨blanks', wellParted.apart.of_cons, joined'⟩ later
      (modeBehind mode chunk)
    have ends : Ends (gap ++ partsText parts) := by
      refine ends_append blanks fun empty => ?_
      cases parts with
      | nil => simp [Ends, partsText]
      | cons part parts => exact absurd empty (isChain_cons_cons.mp wellParted.apart).1
    refine ⟨mode', ?_⟩
    have text : partsText ((chunk, gap) :: parts) = chunkText chunk ++ (gap ++ partsText parts) :=
      append_assoc _ _ _
    rw [text]
    exact (reads_chunk mode run joined ends).trans ((reads_blanks blanks _).trans rest)

/-! ### The values of a text -/

theorem requeueEParse_filed (s : Spelling) :
    ∃ st, requeueEParse s.text = some st ∧ Holds st s.filed := by
  obtain ⟨mode', words, splits, treat⟩ := reads_parts s.wellParted s.grammar .normal
  have empty : Splits [] [] := .stop rfl
  have whole := splits_blanks s.leadBlanks (splits [] empty)
  rw [append_nil] at whole
  refine ⟨_, requeueEParse_of_splits whole, ?_⟩
  exact (treat ⟨[], .normal, false⟩ [] rfl fun v => rfl).2

/-- Looking up a value gives the side of its first occurrence, for every value, exactly if the
first occurrence that is read of each is filed on the side of its first one. -/
theorem matchExitvalue_iff (s : Spelling) :
    (∃ st, requeueEParse s.text = some st ∧ ∀ v,
        matchExitvalue st.rquest v = ((sideOf s.occurrences v).map RqeType.code).getD (-1)) ↔
      ∀ v, sideOf s.filed v = sideOf s.occurrences v := by
  obtain ⟨st, parsed, holds⟩ := requeueEParse_filed s
  have injective : ∀ a b : Option RqeType,
      (a.map RqeType.code).getD (-1) = (b.map RqeType.code).getD (-1) → a = b := by
    rintro (_ | _ | _) (_ | _ | _) same <;> first | rfl | cases same
  constructor
  · rintro ⟨st', parsed', values⟩ v
    rw [parsed] at parsed'
    cases parsed'
    refine injective _ _ ?_
    rw [← values v, holds.matchExitvalue v]
  · intro same
    refine ⟨st, parsed, fun v => ?_⟩
    rw [holds.matchExitvalue v, same v]

/-- The exit value `1`, and `5`. -/
def one : ExitText := ⟨['1'], by decide, by simp, by decide⟩
def five : ExitText := ⟨['5'], by decide, by simp, by decide⟩

/-- The text `EXCLUDE(1)5`. -/
def gluedFive : Spelling where
  lead := []
  parts := [([.exclude, .left, .int one, .right, .int five], [])]
  leadBlanks := by simp
  wellParted := ⟨by simp, by simp, by simp [Joins]⟩
  grammar := rfl

/-- The text `EXCLUDE (1)`. -/
def apartOne : Spelling where
  lead := []
  parts := [([.exclude], [' ']), ([.left, .int one, .right], [])]
  leadBlanks := by simp
  wellParted := ⟨by simp [isspace], by simp, by simp [Joins]⟩
  grammar := rfl

/-- In `EXCLUDE(1)5` the 5 is lost, and in `EXCLUDE (1)` the 1 is not excluded. -/
theorem glued_value_lost :
    gluedFive.text = "EXCLUDE(1)5".toList ∧ sideOf gluedFive.occurrences 5 = some .normal ∧
      (requeueEParse gluedFive.text).map (fun st => matchExitvalue st.rquest 5) = some (-1) ∧
    apartOne.text = "EXCLUDE (1)".toList ∧ sideOf apartOne.occurrences 1 = some .exclude ∧
      (requeueEParse apartOne.text).map (fun st => matchExitvalue st.rquest 1) =
        some RqeType.normal.code := by
  refine ⟨rfl, rfl, by decide +kernel, rfl, rfl, by decide +kernel⟩

end Jhlava.Requeue
