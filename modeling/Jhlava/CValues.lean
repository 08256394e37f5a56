import Mathlib.Data.List.Basic
import Mathlib.Algebra.Order.Ring.Rat

/-! Values of C programs: a machine integer stored in an `int`, the character
classes of the C locale, and the decimal case of `strtol`. A string is the list
of its characters before the terminating NUL. -/
namespace CValues

/-- Storing a value in a C `int`: the value is taken modulo 2^32. -/
def toInt32 (x : Int) : Int := Int.bmod x (2 ^ 32)

theorem toInt32_of_bounds {x : Int} (lo : -(2 ^ 31) ≤ x) (hi : x < 2 ^ 31) : toInt32 x = x := by
  unfold toInt32
  rw [Int.bmod_def]
  split <;> omega

/-- A value of a C `int`. -/
def IsInt32 (x : Int) : Prop := -(2 ^ 31) ≤ x ∧ x < 2 ^ 31

instance (x : Int) : Decidable (IsInt32 x) := inferInstanceAs (Decidable (_ ∧ _))

theorem isInt32_toInt32 (x : Int) : IsInt32 (toInt32 x) := by
  unfold IsInt32 toInt32
  have low : -((2 ^ 32 : Nat) / 2 : Int) ≤ x.bmod (2 ^ 32) := Int.le_bmod (by decide)
  have high : x.bmod (2 ^ 32) < ((2 ^ 32 : Nat) + 1) / 2 := Int.bmod_lt (by decide)
  omega

/-- `isspace` of the C locale. -/
def isspace (c : Char) : Bool :=
  c == ' ' || (9 ≤ c.toNat && c.toNat ≤ 13)

/-- The digits at the front of a string, accumulated onto `acc`. -/
def readDigits : Nat → List Char → Nat × List Char
  | acc, [] => (acc, [])
  | acc, c :: cs =>
    if c.isDigit then readDigits (10 * acc + (c.toNat - '0'.toNat)) cs else (acc, c :: cs)

/-- What one call of `strtol(s, &end, 10)` leaves behind. -/
structure StrtolResult where
  value : Int
  stop : List Char
  erange : Bool
  deriving DecidableEq, Repr

/-- `strtol` in base 10: blanks, an optional sign, then digits. Without a digit
nothing is consumed. -/
def strtol (s : List Char) : StrtolResult :=
  let body := s.dropWhile isspace
  let (negative, digits) := match body with
    | '-' :: rest => (true, rest)
    | '+' :: rest => (false, rest)
    | _ => (false, body)
  if (digits.head?.map Char.isDigit).getD false then
    let (n, stop) := readDigits 0 digits
    let value : Int := if negative then -n else n
    if value < -(2 ^ 63) then ⟨-(2 ^ 63), stop, true⟩
    else if 2 ^ 63 ≤ value then ⟨2 ^ 63 - 1, stop, true⟩
    else ⟨value, stop, false⟩
  else ⟨0, s, false⟩

def atoi (s : List Char) : Int := toInt32 (strtol s).value

end CValues
