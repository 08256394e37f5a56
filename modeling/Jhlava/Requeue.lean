import Jhlava.ConfTree
import Jhlava.DepMatch

/-! The exit values for which a job is requeued, mbd.requeue.c: `requeueEParse` makes a table of
the text of `REQUEUE_EXIT_VALUES`, and `match_exitvalue` looks an exit value up in it. -/
namespace Jhlava.Requeue
open CValues TextScan List
open Jhlava.Conf (getNextWord)
open Jhlava.Dep (isint)

/-- The types of an entry; `RQE_END` is the end of the list. -/
inductive RqeType where
  | normal
  | exclude
  deriving DecidableEq, Repr

/-- `RQE_NORMAL` and `RQE_EXCLUDE`. -/
def RqeType.code : RqeType → Int
  | .normal => 0
  | .exclude => 1

structure RequeueEStruct where
  type : RqeType
  value : Int
  interval : Int
  deriving DecidableEq, Repr

def infinitInt : Int := 0x7fffffff

def myAtoi (arg : Text) (upBound botBound : Int) : Int :=
  if !isint arg then infinitInt
  else if upBound ≤ atoi arg ∨ atoi arg ≤ botBound then infinitInt
  else atoi arg

def aGetNextWord (line : Text) : Option Text × Text :=
  match getNextWord line with
  | (none, line) => (none, line)
  | (some word, line) =>
    if word.contains '(' then
      (some (word.takeWhile (· ≠ '(') ++ ['(']), word.rtakeWhile (· ≠ '(') ++ line)
    else if word.contains ')' && word.head? ≠ some ')' then
      (some ((word.takeWhile (· ≠ ')')).rdropWhile isspace),
        ')' :: (word.rtakeWhile (· ≠ ')') ++ line))
    else (some word, line)

def fillStruct (rquest : List RequeueEStruct) (value : Int) (mode : RqeType) :
    Option (List RequeueEStruct) :=
  if rquest.any fun entry => entry.value = value then none else some (rquest ++ [⟨mode, value, 1⟩])

structure ParseState where
  rquest : List RequeueEStruct
  mode : RqeType
  error : Bool
  deriving DecidableEq, Repr

/-- `strncasecmp(word, "EXCLUDE(", 8) == 0`. -/
def opensExclude (word : Text) : Bool := (word.take 8).map Char.toLower == "exclude(".toList

/-- The body of the loop of `requeueEParse` for a word. -/
def treatWord (st : ParseState) (word : Text) : ParseState :=
  if isint word then
    let exitV := myAtoi word 256 (-1)
    if exitV ≠ infinitInt then
      match fillStruct st.rquest exitV st.mode with
      | some rquest => { st with rquest := rquest }
      | none => { st with error := true }
    else { st with error := true }
  else if opensExclude word then { st with mode := .exclude }
  else if word.head? = some ')' then { st with mode := .normal }
  else st

/-- The loop; `none` if it has not ended in time. -/
def parseWords : Nat → Text → ParseState → Option ParseState
  | 0, _, _ => none
  | fuel + 1, line, st =>
    match aGetNextWord line with
    | (none, _) => some st
    | (some word, line) => parseWords fuel line (treatWord st word)

def requeueEParse (reqstr : Text) : Option ParseState :=
  parseWords (reqstr.length + 1) reqstr ⟨[], .normal, false⟩

def matchExitvalue (reqE : List RequeueEStruct) (exitValue : Int) : Int :=
  match reqE.find? fun entry => entry.value = exitValue with
  | some entry => entry.type.code
  | none => -1

/-! ### The words of a text -/

/-- The words that the calls of `a_getNextWord_` return on a text. -/
inductive Splits : Text → List Text → Prop where
  | stop {line rest : Text} (ends : aGetNextWord line = (none, rest)) : Splits line []
  | word {line rest word : Text} {words : List Text} (next : aGetNextWord line = (some word, rest))
      (later : Splits rest words) : Splits line (word :: words)

variable {line : Text} {words : List Text}

theorem getNextWord_length {word rest : Text} (next : getNextWord line = (some word, rest)) :
    word ≠ [] ∧ word.length + rest.length ≤ line.length := by
  unfold getNextWord at next
  dsimp only at next
  have blanks := (dropWhile_sublist isspace (l := line)).length_le
  have parts := congrArg List.length
    (takeWhile_append_dropWhile (p := fun c => !isspace c) (l := line.dropWhile isspace))
  rw [length_append] at parts
  split at next
  · cases next
  · rename_i some_
    cases next
    exact ⟨some_, by omega⟩

theorem rtakeWhile_append_cons {α : Type} {p : α → Bool} (before : List α) {a : α} {behind : List α}
    (stop : p a = false) (last : ∀ x ∈ behind, p x = true) :
    (before ++ a :: behind).rtakeWhile p = behind := by
  have all : ∀ x ∈ behind.reverse, p x = true := fun x mem => last x (mem_reverse.mp mem)
  rw [List.rtakeWhile, reverse_append, reverse_cons, append_assoc, takeWhile_append_of_pos all]
  simp [stop]

theorem behind_last {c : Char} (before : Text) {behind : Text} (last : c ∉ behind) :
    (before ++ c :: behind).rtakeWhile (· ≠ c) = behind := by
  refine rtakeWhile_append_cons before (by simp) fun x mem => decide_eq_true fun same => ?_
  rw [← same] at last
  exact last mem

theorem takeWhile_append_cons {c : Char} {before : Text} (first : c ∉ before) (behind : Text) :
    (before ++ c :: behind).takeWhile (· ≠ c) = before := by
  have all : ∀ x ∈ before, decide (x ≠ c) = true := by
    intro x mem
    refine decide_eq_true fun same => ?_
    rw [← same] at first
    exact first mem
  rw [takeWhile_append_of_pos all]
  simp

theorem exists_last {α : Type} {a : α} {l : List α} (mem : a ∈ l) :
    ∃ before behind, l = before ++ a :: behind ∧ a ∉ behind := by
  obtain ⟨behind, before, eq, last⟩ := eq_append_cons_of_mem (mem_reverse.mpr mem)
  refine ⟨before.reverse, behind.reverse, ?_, fun mem => last (mem_reverse.mp mem)⟩
  rw [← reverse_reverse l, eq]
  simp

theorem aGetNextWord_length {word rest : Text} (next : aGetNextWord line = (some word, rest)) :
    rest.length < line.length := by
  unfold aGetNextWord at next
  cases read : getNextWord line with
  | mk found line' =>
    rw [read] at next
    cases found with
    | none => cases next
    | some w =>
      obtain ⟨nonempty, shorter⟩ := getNextWord_length read
      have pos := length_pos_iff.mpr nonempty
      dsimp only at next
      split at next
      · rename_i left
        cases next
        obtain ⟨before, behind, rfl, last⟩ := exists_last (contains_iff_mem.mp left)
        rw [behind_last before last]
        simp only [length_append, length_cons] at shorter ⊢
        omega
      · split at next
        · rename_i right
          cases next
          obtain ⟨mem, inner⟩ := (Bool.and_eq_true _ _).mp right
          obtain ⟨before, behind, rfl, last⟩ := exists_last (contains_iff_mem.mp mem)
          rw [behind_last before last]
          cases before with
          | nil => simp at inner
          | cons c before =>
            simp only [length_append, length_cons] at shorter ⊢
            omega
        · cases next
          omega

theorem exists_splits (line : Text) : ∃ words, Splits line words ∧ words.length ≤ line.length := by
  induction size : line.length using Nat.strong_induction_on generalizing line with
  | _ n ih =>
    cases next : aGetNextWord line with
    | mk found rest =>
      cases found with
      | none => exact ⟨[], .stop next, Nat.zero_le _⟩
      | some word =>
        have shorter := aGetNextWord_length next
        obtain ⟨words, later, few⟩ := ih rest.length (size ▸ shorter) rest rfl
        refine ⟨word :: words, .word next later, ?_⟩
        rw [length_cons]
        omega

theorem parseWords_of_splits (splits : Splits line words) {fuel : Nat}
    (enough : words.length < fuel) (st : ParseState) :
    parseWords fuel line st = some (words.foldl treatWord st) := by
  induction splits generalizing fuel st with
  | stop ends =>
    obtain ⟨fuel, rfl⟩ := Nat.exists_eq_add_of_lt enough
    rw [parseWords, ends]
    rfl
  | word next later ih =>
    obtain ⟨fuel, rfl⟩ := Nat.exists_eq_add_of_lt enough
    rw [parseWords, next]
    refine ih ?_ _
    rw [length_cons]
    omega

theorem Splits.unique {words' : List Text} (splits : Splits line words)
    (splits' : Splits line words') : words = words' := by
  induction splits generalizing words' with
  | stop ends =>
    cases splits' with
    | stop => rfl
    | word next =>
      rw [ends] at next
      cases next
  | word next later ih =>
    cases splits' with
    | stop ends =>
      rw [next] at ends
      cases ends
    | word next' later' =>
      rw [next] at next'
      cases next'
      rw [ih later']

theorem requeueEParse_of_splits {reqstr : Text} (splits : Splits reqstr words) :
    requeueEParse reqstr = some (words.foldl treatWord ⟨[], .normal, false⟩) := by
  obtain ⟨words', splits', few⟩ := exists_splits reqstr
  rw [← splits.unique splits'] at few
  exact parseWords_of_splits splits (Nat.lt_succ_of_le few) _

end Jhlava.Requeue
