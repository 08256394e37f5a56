import Jhlava.CValues

/-! The lexer of dependency conditions (`getToken` of mbd.dep.c). -/
namespace Jhlava.Dep
open CValues List

/-- `dptType`: the kinds of tokens and of tree nodes. -/
inductive DptType where
  | and | or | not | left | right
  | done | exit | started | name | ended
  | numpend | numhold | numrun | numexit | numdone | numstart | numended
  | comma
  | gt | ge | lt | le | eq | ne
  | postDone | postErr | always | window
  deriving DecidableEq, Repr

/-- `tempType >= DPT_GT && tempType <= DPT_NE`. -/
def DptType.isComparison : DptType → Bool
  | .gt | .ge | .lt | .le | .eq | .ne => true
  | _ => false

structure TableEntry where
  name : String
  type : DptType
  checkCha : Bool

def tokenTable : List TableEntry :=
  [⟨"(", .left, false⟩, ⟨")", .right, false⟩, ⟨"&&", .and, false⟩, ⟨"||", .or, false⟩,
   ⟨"exit", .exit, true⟩, ⟨"started", .started, true⟩, ⟨"ended", .ended, true⟩,
   ⟨"time", .window, true⟩, ⟨"done", .done, true⟩, ⟨"post_done", .postDone, true⟩,
   ⟨"post_err", .postErr, true⟩, ⟨"numpend", .numpend, true⟩, ⟨"numhold", .numhold, true⟩,
   ⟨"numrun", .numrun, true⟩, ⟨"numexit", .numexit, true⟩, ⟨"numdone", .numdone, true⟩,
   ⟨"numstart", .numstart, true⟩, ⟨"numended", .numended, true⟩, ⟨",", .comma, false⟩,
   ⟨">=", .ge, false⟩, ⟨"<=", .le, false⟩, ⟨"==", .eq, false⟩, ⟨"!=", .ne, false⟩,
   ⟨"<", .lt, false⟩, ⟨">", .gt, false⟩, ⟨"!", .not, false⟩]

/-- `IS_QUOTE`: a double or a single quote. -/
def isQuote (c : Char) : Bool := c == '"' || c == Char.ofNat 39

/-- `IS_VALIDCHAR`. -/
def isValidChar (c : Char) : Bool :=
  c.isAlphanum || ['*', '_', '.', ':', '%', ',', '@', '/', '[', ']', '-'].contains c

/-- `IS_DELIM`. -/
def isDelim (c : Char) : Bool := c == ',' || c == ' '

/-- `4*MAXLINELEN -1`, the room for characters in the token buffer. -/
def tokenRoom : Nat := 4 * 512 - 1

structure Token where
  type : DptType
  text : List Char
  deriving DecidableEq, Repr

def scanQuoted (quote : Char) : Nat → List Char → List Char × List Char
  | 0, cs => ([], cs)
  | _ + 1, [] => ([], [])
  | room + 1, c :: cs =>
    if c == quote then ([c], cs)
    else
      let (text, rest) := scanQuoted quote room cs
      (c :: text, rest)

def scanValid : Nat → List Char → List Char × List Char
  | 0, cs => ([], cs)
  | _ + 1, [] => ([], [])
  | room + 1, c :: cs =>
    if isValidChar c && !isDelim c then
      let (text, rest) := scanValid room cs
      (c :: text, rest)
    else ([], c :: cs)

/-- A job name; `start` is the keyword it begins with, if any. -/
def scanName (start : List Char) : List Char → Token × List Char
  | c :: cs =>
    if isQuote c then
      let (text, rest) := scanQuoted c (tokenRoom - start.length - 1) cs
      (⟨.name, start ++ c :: text⟩, rest)
    else
      let (text, rest) := scanValid (tokenRoom - start.length) (c :: cs)
      (⟨.name, start ++ text⟩, rest)
  | [] => (⟨.name, start⟩, [])

/-- `getToken`: the next token and the text after it. A keyword that runs on
with a letter, a digit or a star is the start of a job name. -/
def getToken (s : List Char) : Option (Token × List Char) :=
  match s.dropWhile isspace with
  | [] => none
  | text =>
    match tokenTable.find? (fun entry => entry.name.toList.isPrefixOf text) with
    | none => some (scanName [] text)
    | some entry =>
      let rest := text.drop entry.name.length
      let runsOn := (rest.head?.map fun c => c.isAlphanum || c == '*').getD false
      if runsOn && entry.checkCha then some (scanName entry.name.toList rest)
      else some (⟨entry.type, entry.name.toList⟩, rest)

/-! ### Names -/

/-- A character of a job name: `IS_VALIDCHAR` and not `IS_DELIM`. -/
def nameChar (c : Char) : Bool := isValidChar c && !isDelim c

def runsOn (c : Char) : Bool := c.isAlphanum || c == '*'

variable {c : Char} {rest : List Char}

theorem toNat_of_nameChar (name : nameChar c = true) : 37 ≤ c.toNat ∧ c.toNat ≠ 39 := by
  rw [nameChar, Bool.and_eq_true, isValidChar, Bool.or_eq_true, contains_iff_mem] at name
  rcases name.1 with alnum | sign
  · delta Char.isAlphanum Char.isAlpha Char.isUpper Char.isLower Char.isDigit at alnum
    simp only [Bool.or_eq_true, Bool.and_eq_true, decide_eq_true_eq, ge_iff_le,
      UInt32.le_iff_toNat_le, Char.toNat_val] at alnum
    have codes : 'A'.toNat = 65 ∧ 'a'.toNat = 97 ∧ '0'.toNat = 48 := by decide
    omega
  · have all : ['*', '_', '.', ':', '%', ',', '@', '/', '[', ']', '-'].all
        (fun c => decide (37 ≤ c.toNat ∧ c.toNat ≠ 39)) = true := by decide
    exact of_decide_eq_true (all_eq_true.mp all c sign)

theorem not_isspace_of_nameChar (name : nameChar c = true) : isspace c = false := by
  have large := (toNat_of_nameChar name).1
  have blank : c ≠ ' ' := by
    rintro rfl
    exact absurd large (by decide)
  simp only [isspace, Bool.or_eq_false_iff, beq_eq_false_iff_ne, Bool.and_eq_false_iff,
    decide_eq_false_iff_not]
  exact ⟨blank, Or.inr (by omega)⟩

theorem not_isQuote_of_nameChar (name : nameChar c = true) : isQuote c = false := by
  have range := toNat_of_nameChar name
  simp only [isQuote, Bool.or_eq_false_iff, beq_eq_false_iff_ne]
  constructor
  · rintro rfl
    exact absurd range.1 (by decide)
  · rintro rfl
    exact range.2 rfl

theorem nameChar_of_runsOn (on : runsOn c = true) : nameChar c = true := by
  have delim : isDelim c = false := by
    by_contra delim
    rw [Bool.not_eq_false, isDelim, Bool.or_eq_true, beq_iff_eq, beq_iff_eq] at delim
    rcases delim with rfl | rfl
    · cases on
    · cases on
  rw [runsOn, Bool.or_eq_true, beq_iff_eq] at on
  rw [nameChar, delim, isValidChar]
  rcases on with alnum | rfl
  · rw [alnum]
    rfl
  · rfl

theorem scanValid_run {w : List Char} (run : ∀ c ∈ w, nameChar c = true)
    (maximal : ∀ c ∈ rest.head?, nameChar c = false) {room : Nat} (fits : w.length ≤ room) :
    scanValid room (w ++ rest) = (w, rest) := by
  induction w generalizing room with
  | nil =>
    cases room with
    | zero => rfl
    | succ room =>
      cases rest with
      | nil => rfl
      | cons c cs =>
        have stop : (isValidChar c && !isDelim c) = false := maximal c rfl
        simp [scanValid, stop]
  | cons c w ih =>
    obtain ⟨room, rfl⟩ : ∃ n, room = n + 1 := ⟨room - 1, by simp at fits; omega⟩
    have here : (isValidChar c && !isDelim c) = true := run c mem_cons_self
    have tail := ih (fun c mem => run c (mem_cons_of_mem _ mem)) (Nat.le_of_succ_le_succ fits)
    simp [scanValid, here, tail]

theorem scanName_run {start w : List Char} (nonempty : w ≠ []) (run : ∀ c ∈ w, nameChar c = true)
    (maximal : ∀ c ∈ rest.head?, nameChar c = false) (fits : (start ++ w).length ≤ tokenRoom) :
    scanName start (w ++ rest) = (⟨.name, start ++ w⟩, rest) := by
  obtain ⟨c, w, rfl⟩ := exists_cons_of_ne_nil nonempty
  have quote := not_isQuote_of_nameChar (run c mem_cons_self)
  have scan := scanValid_run run maximal
    (show (c :: w).length ≤ tokenRoom - start.length by rw [length_append] at fits; omega)
  rw [cons_append] at scan ⊢
  simp [scanName, quote, scan]

theorem tokenTable_chars : ∀ entry ∈ tokenTable,
    entry.checkCha = true ∧ entry.name.toList.all nameChar = true ∨
      entry.name.toList.head?.map nameChar = some false := by
  decide

theorem tokenTable_apart : ∀ entry ∈ tokenTable, ∀ other ∈ tokenTable,
    entry.name.toList <+: other.name.toList → entry.name = other.name ∨ other.checkCha = false := by
  decide

theorem getToken_of_none {cs : List Char} (blank : isspace c = false)
    (found : tokenTable.find? (fun entry => entry.name.toList.isPrefixOf (c :: cs)) = none) :
    getToken (c :: cs) = some (scanName [] (c :: cs)) := by
  rw [getToken, dropWhile_cons, blank]
  simp [found]

theorem getToken_of_some {cs : List Char} (blank : isspace c = false) {entry : TableEntry}
    (split : c :: cs = entry.name.toList ++ rest)
    (found : tokenTable.find? (fun entry => entry.name.toList.isPrefixOf (c :: cs)) = some entry) :
    getToken (c :: cs) =
      if (rest.head?.map runsOn).getD false && entry.checkCha then
        some (scanName entry.name.toList rest)
      else some (⟨entry.type, entry.name.toList⟩, rest) := by
  have behind : (c :: cs).drop entry.name.length = rest := by
    rw [split, ← String.length_toList, drop_left]
  rw [getToken, dropWhile_cons, blank]
  simp only [Bool.false_eq_true, if_false, found, behind]
  rfl

section Run

variable {w rest : List Char} (nonempty : w ≠ []) (run : ∀ c ∈ w, nameChar c = true)
  (maximal : ∀ c ∈ rest.head?, nameChar c = false)
include nonempty run maximal

theorem keyword_of_isPrefix {entry : TableEntry} (mem : entry ∈ tokenTable)
    (start : entry.name.toList <+: w ++ rest) :
    entry.checkCha = true ∧ entry.name.toList <+: w := by
  obtain ⟨d, ds, rfl⟩ := exists_cons_of_ne_nil nonempty
  rcases tokenTable_chars entry mem with ⟨keyword, chars⟩ | sign
  · refine ⟨keyword, ?_⟩
    rcases prefix_or_prefix_of_prefix start (prefix_append _ rest) with inside | around
    · exact inside
    · obtain ⟨more, name⟩ := around
      rw [← name, prefix_append_right_inj] at start
      cases more with
      | nil =>
        rw [append_nil] at name
        exact ⟨[], by rw [append_nil, name]⟩
      | cons c more =>
        obtain ⟨behind, rfl⟩ := start
        have inside := all_eq_true.mp chars c (by rw [← name]; simp)
        rw [maximal c rfl] at inside
        cases inside
  · obtain ⟨c, first, notName⟩ := Option.map_eq_some_iff.mp sign
    obtain ⟨cs, name⟩ := List.head?_eq_some_iff.mp first
    rw [name, cons_append, cons_prefix_cons] at start
    rw [start.1, run d mem_cons_self] at notName
    cases notName

theorem keyword_unique {entry other : TableEntry} (mem : entry ∈ tokenTable)
    (mem' : other ∈ tokenTable) (start : entry.name.toList <+: w)
    (start' : other.name.toList <+: w) : entry.name = other.name := by
  have keyword : ∀ {e : TableEntry}, e ∈ tokenTable → e.name.toList <+: w → e.checkCha = true :=
    fun mem start => (keyword_of_isPrefix nonempty run maximal mem
      (start.trans (prefix_append w rest))).1
  rcases prefix_or_prefix_of_prefix start start' with le | le
  · rcases tokenTable_apart entry mem other mem' le with same | sign
    · exact same
    · rw [keyword mem' start'] at sign
      cases sign
  · rcases tokenTable_apart other mem' entry mem le with same | sign
    · exact same.symm
    · rw [keyword mem start] at sign
      cases sign

/-- At a run of such characters `getToken` gives a keyword or a name. -/
theorem getToken_run (fits : w.length < 4 * 512) :
    (getToken (w ++ rest) = some (⟨.name, w⟩, rest) ∧
      ∀ entry ∈ tokenTable, ¬entry.name.toList <+: w) ∨
    ∃ entry ∈ tokenTable, ∃ tail, w = entry.name.toList ++ tail ∧
      getToken (w ++ rest) =
        if (tail.head?.map runsOn).getD false then some (⟨.name, w⟩, rest)
        else some (⟨entry.type, entry.name.toList⟩, tail ++ rest) := by
  have keyword := fun entry => @keyword_of_isPrefix w rest nonempty run maximal entry
  obtain ⟨c, cs, rfl⟩ := exists_cons_of_ne_nil nonempty
  have blank := not_isspace_of_nameChar (run c mem_cons_self)
  cases found :
    tokenTable.find? (fun entry => entry.name.toList.isPrefixOf (c :: (cs ++ rest))) with
  | none =>
    refine Or.inl ⟨?_, fun entry mem start => ?_⟩
    · rw [cons_append, getToken_of_none blank found]
      rw [← cons_append, scanName_run nonempty run maximal (Nat.le_of_lt_succ fits)]
      rfl
    · have absent := List.find?_eq_none.mp found entry mem
      exact absent (List.isPrefixOf_iff_prefix.mpr (start.trans (prefix_append _ rest)))
  | some entry =>
    have mem := mem_of_find?_eq_some found
    have start : entry.name.toList.isPrefixOf (c :: (cs ++ rest)) = true := by
      simpa using List.find?_some found
    obtain ⟨check, tail, split⟩ := keyword entry mem (List.isPrefixOf_iff_prefix.mp start)
    refine Or.inr ⟨entry, mem, tail, split.symm, ?_⟩
    have whole : c :: (cs ++ rest) = entry.name.toList ++ (tail ++ rest) := by
      rw [← append_assoc, split, cons_append]
    rw [cons_append, getToken_of_some blank whole found, check, Bool.and_true]
    cases tail with
    | nil =>
      have stop : (rest.head?.map runsOn).getD false = false := by
        cases first : rest.head? with
        | none => rfl
        | some c =>
          rw [Option.map_some, ← Bool.not_eq_true]
          intro on
          have name := nameChar_of_runsOn on
          rw [maximal c first] at name
          cases name
      rw [nil_append, stop]
      rfl
    | cons d tail =>
      have chars : ∀ c ∈ d :: tail, nameChar c = true := by
        intro c mem
        exact run c (split ▸ mem_append_right _ mem)
      have name := scanName_run (cons_ne_nil d tail) chars maximal
        (split ▸ Nat.le_of_lt_succ fits)
      rw [name, split]
      rfl

variable (fits : w.length < 4 * 512) (plain : ∀ entry ∈ tokenTable, entry.name.toList ≠ w)
include fits plain

/-- A run of characters of names that is no keyword is read as one name, exactly if a
keyword it starts with runs on with a letter, a digit or a star. -/
theorem getToken_name_iff :
    getToken (w ++ rest) = some (⟨.name, w⟩, rest) ↔
      ∀ entry ∈ tokenTable, ∀ c tail, w = entry.name.toList ++ c :: tail → runsOn c = true := by
  rcases getToken_run nonempty run maximal fits with ⟨name, none_⟩ | ⟨entry, mem, tail, split, read⟩
  · refine iff_of_true name fun entry mem c tail split => ?_
    exact absurd ⟨c :: tail, split.symm⟩ (none_ entry mem)
  · obtain ⟨d, tail, rfl⟩ : ∃ d ds, tail = d :: ds := by
      refine exists_cons_of_ne_nil fun none_ => plain entry mem ?_
      rw [split, none_, append_nil]
    rw [read]
    change (if runsOn d = true then _ else _) = _ ↔ _
    constructor
    · intro name other mem' c tail' split'
      have same : other.name = entry.name := by
        have start : entry.name.toList <+: w := ⟨_, split.symm⟩
        have start' : other.name.toList <+: w := ⟨_, split'.symm⟩
        exact keyword_unique nonempty run maximal mem' mem start' start
      rw [same, split, append_cancel_left_eq, List.cons.injEq] at split'
      rw [← split'.1]
      by_contra off
      rw [if_neg off, Option.some.injEq, Prod.mk.injEq, Token.mk.injEq] at name
      have shorter := congrArg List.length (name.1.2.trans split)
      simp at shorter
    · intro on
      rw [if_pos (on entry mem d tail split)]

end Run

def done2 : List Char := "done2.log".toList

theorem getToken_name_iff_done2 :
    (∀ entry ∈ tokenTable, entry.name.toList ≠ done2) ∧
    getToken (done2 ++ [')']) = some (⟨.name, done2⟩, [')']) := by
  have plain : ∀ entry ∈ tokenTable, entry.name.toList ≠ done2 := by decide
  have run : ∀ c ∈ done2, nameChar c = true := List.all_eq_true.mp (by decide)
  have maximal : ∀ c ∈ [')'].head?, nameChar c = false := by
    rintro c ⟨⟩
    decide
  have behind : ∀ entry ∈ tokenTable, entry.name.toList.isPrefixOf done2 = true →
      (done2.drop entry.name.toList.length).head?.map runsOn = some true := by decide
  refine ⟨plain, (getToken_name_iff (by decide) run maximal (by decide) plain).mpr ?_⟩
  intro entry mem c tail split
  have on := behind entry mem (List.isPrefixOf_iff_prefix.mpr ⟨c :: tail, split.symm⟩)
  rw [split, List.drop_left] at on
  exact Option.some.inj on

/-- The name `done_x` is read as the keyword `done` and a name. -/
theorem done_x_split :
    "done_x".toList.all nameChar = true ∧
    (∀ entry ∈ tokenTable, entry.name.toList ≠ "done_x".toList) ∧
    getToken "done_x".toList = some (⟨.done, "done".toList⟩, "_x".toList) := by
  decide

end Jhlava.Dep
