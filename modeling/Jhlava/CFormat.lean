import Jhlava.CFloat
import Jhlava.CValues
import Jhlava.TextScan

/-! The conversions `%d` and `%.kf` of C's formatted output, and the decimal
scans `%d` and `%f` of its input. A number with a fraction is printed rounded
to `k` decimals, halves to even; scanning it gives the printed value. -/
namespace CFormat
open CValues CFloat TextScan List Option

/-- `%d`. -/
def printD (n : ℤ) : List Char :=
  if n < 0 then '-' :: Nat.toDigits 10 n.natAbs else Nat.toDigits 10 n.natAbs

/-- One `%d` of `sscanf`: the value stored and the text after it. -/
def scanD (s : List Char) : Option (Int32 × List Char) :=
  let r := strtol s
  if r.stop = s then none else some (Int32.ofInt r.value, r.stop)

/-- The size of `q` in units of the last printed decimal. -/
def units (k : ℕ) (q : ℚ) : ℕ := (roundEven (|q| * 10 ^ k)).toNat

/-- The digits of `%.kf` behind the sign. -/
def printFixed (k n : ℕ) : List Char :=
  Nat.toDigits 10 (n / 10 ^ k) ++
    (if k = 0 then [] else '.' :: (Nat.toDigits 10 (n % 10 ^ k)).leftpad k '0')

/-- `%w.kf`: padded with blanks on the left to `w` characters. -/
def printF (w k : ℕ) (q : ℚ) : List Char :=
  ((if q < 0 then ['-'] else []) ++ printFixed k (units k q)).leftpad w ' '

/-- The value that `%.kf` prints for `q`. -/
def printedF (k : ℕ) (q : ℚ) : ℚ := (if q < 0 then -1 else 1) * (units k q / 10 ^ k)

def readSign : List Char → ℤ × List Char
  | '-' :: cs => (-1, cs)
  | '+' :: cs => (1, cs)
  | cs => (1, cs)

def readExponent : List Char → ℤ × List Char
  | c :: cs =>
    if c = 'e' ∨ c = 'E' then
      let (sign, ds) := readSign cs
      if (ds.head?.map Char.isDigit).getD false then
        let (n, rest) := readDigits 0 ds
        (sign * n, rest)
      else (0, c :: cs)
    else (0, c :: cs)
  | [] => (0, [])

def readFraction (n : ℕ) : List Char → (ℕ × ℕ) × List Char
  | '.' :: cs =>
    let (m, rest) := readDigits n cs
    ((m, cs.length - rest.length), rest)
  | cs => ((n, 0), cs)

/-- One `%f` of `sscanf` on decimal notation, before the value is rounded to the
floating-point format it is stored in. -/
def scanF (s : List Char) : Option (ℚ × List Char) :=
  let (sign, body) := readSign (s.dropWhile isspace)
  let front := if body.head? = some '.' then body.drop 1 else body
  if (front.head?.map Char.isDigit).getD false then
    let (n, rest) := readDigits 0 body
    let ((m, scale), rest) := readFraction n rest
    let (e, rest) := readExponent rest
    some (sign * m / 10 ^ scale * (10 : ℚ) ^ e, rest)
  else none

/-- `atof`: no number at the front counts as zero. -/
def atof (s : List Char) : ℚ := ((scanF s).map Prod.fst).getD 0

example : printF 6 2 (5 / 8) = "  0.62".toList := by decide +kernel

variable {c : Char} {n : ℕ} {pad t : Text}

section Digits

theorem readDigits_append {ds : Text} (digits : ∀ c ∈ ds, c.isDigit = true)
    (stop : ∀ c ∈ t.head?, c.isDigit = false) (acc : ℕ) :
    readDigits acc (ds ++ t) = (Nat.ofDigitChars 10 ds acc, t) := by
  induction ds generalizing acc with
  | nil =>
    cases t with
    | nil => rfl
    | cons c t =>
      have hc : c.isDigit = false := stop c rfl
      simp [readDigits, hc]
  | cons d ds ih =>
    have hd : d.isDigit = true := digits d mem_cons_self
    rw [cons_append, readDigits, if_pos hd,
      ih (fun c hc => digits c (mem_cons_of_mem d hc)), Nat.ofDigitChars_cons]

theorem isDigit_toDigits (hc : c ∈ Nat.toDigits 10 n) : c.isDigit = true :=
  Nat.isDigit_of_mem_toDigits (by decide) (by decide) hc

theorem isDigit_false_of_sep (sep : Sep t) : ∀ c ∈ t.head?, c.isDigit = false := by
  intro c hc
  rw [sep c hc]
  decide

theorem readDigits_toDigits (n : ℕ) (stop : ∀ c ∈ t.head?, c.isDigit = false) :
    readDigits 0 (Nat.toDigits 10 n ++ t) = (n, t) := by
  rw [readDigits_append (fun _ => isDigit_toDigits) stop, Nat.ofDigitChars_ten_toDigits]

theorem isspace_of_isDigit (digit : c.isDigit = true) : isspace c = false := by
  simp only [Char.isDigit, Bool.and_eq_true, decide_eq_true_eq] at digit
  have low : 48 ≤ c.toNat := digit.1
  have blank : c ≠ ' ' := by rintro rfl; exact absurd low (by decide)
  simp only [isspace, Bool.or_eq_false_iff, beq_eq_false_iff_ne]
  exact ⟨blank, by simp; omega⟩

theorem toDigits_head (n : ℕ) :
    ∃ d ds, Nat.toDigits 10 n = d :: ds ∧ d.isDigit = true ∧ isspace d = false ∧
      d ≠ '-' ∧ d ≠ '+' ∧ d ≠ '.' := by
  cases h : Nat.toDigits 10 n with
  | nil => exact absurd h Nat.toDigits_ne_nil
  | cons d ds =>
    have hd : d.isDigit = true := isDigit_toDigits (h ▸ mem_cons_self)
    refine ⟨d, ds, rfl, hd, isspace_of_isDigit hd, ?_, ?_, ?_⟩
    all_goals rintro rfl; revert hd; decide

theorem strtol_digits {d : Char} {ds : Text} (digits : ∀ c ∈ d :: ds, c.isDigit = true)
    (stop : ∀ c ∈ t.head?, c.isDigit = false) (fits : Nat.ofDigitChars 10 (d :: ds) 0 < 2 ^ 63) :
    strtol (d :: ds ++ t) = ⟨Nat.ofDigitChars 10 (d :: ds) 0, t, false⟩ := by
  have digit := digits d mem_cons_self
  have read := readDigits_append digits stop 0
  have body : (d :: ds ++ t).dropWhile isspace = d :: ds ++ t := by
    rw [cons_append, dropWhile_cons_of_neg]
    rw [isspace_of_isDigit digit]
    exact Bool.false_ne_true
  unfold strtol
  rw [body]
  rw [cons_append] at read ⊢
  dsimp only
  split
  · rename_i sign
    obtain ⟨rfl, -⟩ := List.cons.inj sign
    cases digit
  · rename_i sign
    obtain ⟨rfl, -⟩ := List.cons.inj sign
    cases digit
  · simp only [List.head?_cons, map_some, getD_some, digit, if_true, read,
      Bool.false_eq_true, if_false]
    rw [if_neg (by omega), if_neg (by omega)]

def EndsNumber (c : Char) : Prop := isspace c = false ∧ c ≠ '-' ∧ c ≠ '+' ∧ c.isDigit = false

variable {v : Text}

theorem readDigits_append_stop (ends : ∀ c ∈ v.head?, c.isDigit = false) (u : Text) (acc : ℕ) :
    readDigits acc (u ++ v) = ((readDigits acc u).1, (readDigits acc u).2 ++ v) := by
  induction u generalizing acc with
  | nil =>
    cases v with
    | nil => rfl
    | cons c v => simp [readDigits, ends c rfl]
  | cons d u ih =>
    rw [cons_append]
    by_cases digit : d.isDigit
    · simp only [readDigits, digit, if_true, ih]
    · simp only [readDigits, digit, if_false, Bool.false_eq_true, cons_append]

theorem dropWhile_append_stop (ends : ∀ c ∈ v.head?, isspace c = false) (u : Text) :
    (u ++ v).dropWhile isspace = u.dropWhile isspace ++ v := by
  induction u with
  | nil =>
    cases v with
    | nil => rfl
    | cons c v => simp [ends c rfl]
  | cons c u ih =>
    rw [cons_append]
    by_cases blank : isspace c
    · rw [dropWhile_cons_of_pos blank, dropWhile_cons_of_pos blank, ih]
    · rw [dropWhile_cons_of_neg blank, dropWhile_cons_of_neg blank, cons_append]

/-- The sign that `strtol` passes: whether it is a minus, and the text behind. -/
def splitSign : Text → Bool × Text
  | '-' :: rest => (true, rest)
  | '+' :: rest => (false, rest)
  | body => (false, body)

/-- The number that `strtol` reads behind the sign, in the text `s`. -/
def numberAt (s : Text) (negative : Bool) (digits : Text) : StrtolResult :=
  if (digits.head?.map Char.isDigit).getD false then
    let value : Int := if negative then -(readDigits 0 digits).1 else (readDigits 0 digits).1
    if value < -(2 ^ 63) then ⟨-(2 ^ 63), (readDigits 0 digits).2, true⟩
    else if 2 ^ 63 ≤ value then ⟨2 ^ 63 - 1, (readDigits 0 digits).2, true⟩
    else ⟨value, (readDigits 0 digits).2, false⟩
  else ⟨0, s, false⟩

theorem strtol_eq (s : Text) :
    strtol s =
      numberAt s (splitSign (s.dropWhile isspace)).1 (splitSign (s.dropWhile isspace)).2 := by
  unfold strtol
  generalize s.dropWhile isspace = body
  dsimp only
  split
  · rfl
  · rfl
  · rename_i minus plus
    rw [splitSign.eq_3 body minus plus]
    rfl

theorem splitSign_append (ends : ∀ c ∈ v.head?, c ≠ '-' ∧ c ≠ '+') (u : Text) :
    splitSign (u ++ v) = ((splitSign u).1, (splitSign u).2 ++ v) := by
  cases u with
  | nil =>
    cases v with
    | nil => rfl
    | cons c v =>
      obtain ⟨minus, plus⟩ := ends c rfl
      simp [splitSign, minus, plus]
  | cons c u =>
    by_cases minus : c = '-'
    · subst minus
      rfl
    · by_cases plus : c = '+'
      · subst plus
        rfl
      · simp [splitSign, minus, plus]

theorem numberAt_append (ends : ∀ c ∈ v.head?, c.isDigit = false) (u d : Text) (negative : Bool) :
    numberAt (u ++ v) negative (d ++ v) =
      { numberAt u negative d with stop := (numberAt u negative d).stop ++ v } := by
  have first : ((d ++ v).head?.map Char.isDigit).getD false =
      (d.head?.map Char.isDigit).getD false := by
    cases d with
    | nil =>
      cases v with
      | nil => rfl
      | cons c v => exact ends c rfl
    | cons c d => rfl
  unfold numberAt
  rw [first, readDigits_append_stop ends]
  dsimp only
  generalize (if negative then -((readDigits 0 d).1 : Int) else (readDigits 0 d).1) = value
  split
  · split
    · rfl
    · split <;> rfl
  · rfl

theorem strtol_append (ends : ∀ c ∈ v.head?, EndsNumber c) (u : Text) :
    strtol (u ++ v) = { strtol u with stop := (strtol u).stop ++ v } := by
  rw [strtol_eq, strtol_eq, dropWhile_append_stop (fun c hc => (ends c hc).1),
    splitSign_append (fun c hc => ⟨(ends c hc).2.1, (ends c hc).2.2.1⟩),
    numberAt_append (fun c hc => (ends c hc).2.2.2)]

theorem scanD_append (ends : ∀ c ∈ v.head?, EndsNumber c) (u : Text) :
    scanD (u ++ v) = (scanD u).map fun read => (read.1, read.2 ++ v) := by
  unfold scanD
  rw [strtol_append ends]
  by_cases stop : (strtol u).stop = u
  · simp [stop]
  · simp [stop]

theorem dropWhile_blanks {s : Text} (blanks : ∀ c ∈ pad, c = ' ')
    (first : ∀ c ∈ s.head?, isspace c = false) : (pad ++ s).dropWhile isspace = s := by
  rw [dropWhile_append_of_pos (fun c hc => by rw [blanks c hc]; decide)]
  cases s with
  | nil => rfl
  | cons c s => rw [dropWhile_cons_of_neg (by rw [first c rfl]; decide)]

end Digits

section Integers

theorem printD_shape (n : ℤ) :
    ∃ d ds, printD n = (if n < 0 then ['-'] else []) ++ d :: ds ∧
      d :: ds = Nat.toDigits 10 n.natAbs ∧ d.isDigit = true ∧ isspace d = false ∧
      d ≠ '-' ∧ d ≠ '+' := by
  obtain ⟨d, ds, shape, digit, space, minus, plus, -⟩ := toDigits_head n.natAbs
  refine ⟨d, ds, ?_, shape.symm, digit, space, minus, plus⟩
  rw [printD, shape]
  split <;> rfl

theorem strtol_printD (n : ℤ) (blanks : ∀ c ∈ pad, c = ' ')
    (stop : ∀ c ∈ t.head?, c.isDigit = false) (lo : -(2 ^ 63) ≤ n) (hi : n < 2 ^ 63) :
    strtol (pad ++ (printD n ++ t)) = ⟨n, t, false⟩ := by
  obtain ⟨d, ds, shape, all, digit, space, minus, plus⟩ := printD_shape n
  have read := readDigits_toDigits n.natAbs stop
  rw [← all] at read
  have body : (pad ++ (printD n ++ t)).dropWhile isspace = printD n ++ t := by
    apply dropWhile_blanks blanks
    intro c hc
    rw [shape] at hc
    split at hc
    · cases hc
      decide
    · cases hc
      exact space
  unfold strtol
  rw [body, shape]
  by_cases neg : n < 0
  · have size : -(n.natAbs : ℤ) = n := by omega
    simp only [if_pos neg, cons_append, nil_append] at read ⊢
    simp only [List.head?_cons, map_some, getD_some, digit, if_true, read, size]
    rw [if_neg (by omega), if_neg (by omega)]
  · have size : (n.natAbs : ℤ) = n := by omega
    simp only [if_neg neg, cons_append, nil_append] at read ⊢
    split
    · rename_i h
      exact absurd (List.cons.inj h).1 minus
    · rename_i h
      exact absurd (List.cons.inj h).1 plus
    · simp only [List.head?_cons, map_some, getD_some, digit, if_true, read, size,
        Bool.false_eq_true, if_false]
      rw [if_neg (by omega), if_neg (by omega)]

theorem ne_printD_append (n : ℤ) (pad t : Text) : t ≠ pad ++ (printD n ++ t) := by
  obtain ⟨d, ds, shape, -⟩ := printD_shape n
  intro h
  have length := congrArg List.length h
  rw [shape] at length
  simp only [length_append, length_cons] at length
  omega

theorem scanD_printD_stop (n : Int32) {pad t : Text} (blanks : ∀ c ∈ pad, c = ' ')
    (stop : ∀ c ∈ t.head?, c.isDigit = false) :
    scanD (pad ++ (printD n.toInt ++ t)) = some (n, t) := by
  have lo := n.le_toInt
  have hi := n.toInt_lt
  unfold scanD
  rw [strtol_printD n.toInt blanks stop (by omega) (by omega)]
  simp only [if_neg (ne_printD_append n.toInt pad t), Int32.ofInt_toInt]

theorem scanD_printD (n : Int32) (blanks : ∀ c ∈ pad, c = ' ') (sep : Sep t) :
    scanD (pad ++ (printD n.toInt ++ t)) = some (n, t) :=
  scanD_printD_stop n blanks (isDigit_false_of_sep sep)

end Integers

section Fractions

theorem readSign_of_ne {d : Char} {cs : Text} (minus : d ≠ '-') (plus : d ≠ '+') :
    readSign (d :: cs) = (1, d :: cs) := by
  unfold readSign
  split
  · rename_i h
    exact absurd (List.cons.inj h).1 minus
  · rename_i h
    exact absurd (List.cons.inj h).1 plus
  · rfl

theorem readExponent_of_sep (sep : Sep t) : readExponent t = (0, t) := by
  cases t with
  | nil => rfl
  | cons c t =>
    have hc : c = ' ' := sep c rfl
    rw [hc]
    rfl

theorem ofDigitChars_fraction {k : ℕ} (pos : k ≠ 0) :
    Nat.ofDigitChars 10 ((Nat.toDigits 10 (n % 10 ^ k)).leftpad k '0') (n / 10 ^ k) = n := by
  have short : (Nat.toDigits 10 (n % 10 ^ k)).length ≤ k := by
    rw [Nat.length_toDigits_le_iff (by decide) (Nat.pos_of_ne_zero pos)]
    exact Nat.mod_lt _ (by positivity)
  rw [List.leftpad, Nat.ofDigitChars_append, Nat.ofDigitChars_replicate_zero,
    Nat.ofDigitChars_eq_ofDigitChars_zero, Nat.ofDigitChars_ten_toDigits, ← mul_assoc, ← pow_add,
    Nat.add_sub_cancel' short]
  exact Nat.div_add_mod n (10 ^ k)

theorem leftpad_isDigit {k : ℕ} (hc : c ∈ (Nat.toDigits 10 n).leftpad k '0') :
    c.isDigit = true := by
  rw [List.leftpad, mem_append] at hc
  rcases hc with zero | digit
  · rw [eq_of_mem_replicate zero]
    decide
  · exact isDigit_toDigits digit

theorem readFraction_printFixed (k n : ℕ) (sep : Sep t) :
    ∃ rest, readDigits 0 (printFixed k n ++ t) = (n / 10 ^ k, rest) ∧
      readFraction (n / 10 ^ k) rest = ((n, k), t) := by
  have stop := isDigit_false_of_sep sep
  by_cases zero : k = 0
  · subst zero
    refine ⟨t, ?_, ?_⟩
    · rw [printFixed, if_pos rfl, append_nil, readDigits_toDigits _ stop]
    · have point : t.head? ≠ some '.' := sep.head_ne (by decide)
      unfold readFraction
      split
      · exact absurd rfl point
      · simp
  · refine ⟨'.' :: ((Nat.toDigits 10 (n % 10 ^ k)).leftpad k '0' ++ t), ?_, ?_⟩
    · rw [printFixed, if_neg zero, append_assoc]
      apply readDigits_toDigits
      intro c hc
      cases hc
      decide
    · have short : (Nat.toDigits 10 (n % 10 ^ k)).length ≤ k := by
        rw [Nat.length_toDigits_le_iff (by decide) (Nat.pos_of_ne_zero zero)]
        exact Nat.mod_lt _ (by positivity)
      simp only [readFraction, readDigits_append (fun _ => leftpad_isDigit) stop,
        ofDigitChars_fraction zero, length_append, length_leftpad, Nat.max_eq_left short,
        Nat.add_sub_cancel]

theorem printFixed_head (k n : ℕ) :
    ∃ d ds, printFixed k n = d :: ds ∧ d.isDigit = true ∧ isspace d = false ∧
      d ≠ '-' ∧ d ≠ '+' ∧ d ≠ '.' := by
  obtain ⟨d, ds, shape, rest⟩ := toDigits_head (n / 10 ^ k)
  exact ⟨d, _, by rw [printFixed, shape, cons_append], rest⟩

theorem scanF_unpadded (k n : ℕ) (neg : Bool) {s : Text} (sep : Sep t)
    (body : s.dropWhile isspace = (if neg then ['-'] else []) ++ printFixed k n ++ t) :
    scanF s = some ((if neg then -1 else 1 : ℚ) * ((n : ℚ) / 10 ^ k), t) := by
  obtain ⟨d, ds, shape, digit, -, minus, plus, point⟩ := printFixed_head k n
  obtain ⟨rest, int, frac⟩ := readFraction_printFixed k n sep
  rw [shape, cons_append] at int
  have sign : readSign (s.dropWhile isspace) = (if neg then -1 else 1, d :: (ds ++ t)) := by
    rw [body, shape]
    cases neg with
    | true => rfl
    | false => exact readSign_of_ne minus plus
  unfold scanF
  rw [sign]
  simp only [List.head?_cons, Option.some.injEq, point, if_false, map_some,
    getD_some, digit, if_true, int, frac, readExponent_of_sep sep, zpow_zero, mul_one]
  cases neg with
  | true => simp [neg_div]
  | false => simp

theorem scanF_printF (w k : ℕ) (q : ℚ) (blanks : ∀ c ∈ pad, c = ' ') (sep : Sep t) :
    scanF (pad ++ (printF w k q ++ t)) = some (printedF k q, t) := by
  obtain ⟨d, ds, shape, -, space, -⟩ := printFixed_head k (units k q)
  have read := scanF_unpadded k (units k q) (decide (q < 0)) (s := pad ++ (printF w k q ++ t)) sep
  simp only [decide_eq_true_eq] at read
  apply read
  rw [printF, List.leftpad, append_assoc, ← append_assoc pad]
  apply dropWhile_blanks
  · intro c hc
    rcases mem_append.mp hc with before | fill
    · exact blanks c before
    · exact eq_of_mem_replicate fill
  · intro c hc
    rw [shape] at hc
    split at hc
    · cases hc
      decide
    · cases hc
      exact space

end Fractions

end CFormat
