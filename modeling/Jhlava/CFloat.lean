import Mathlib.Data.Rat.Floor

/-! The numbers of C's `float`, as the rationals they stand for: the rounding of a value to
24 binary digits, which every conversion and every operation ends with, and the conversion
to an `int`. The range of the exponent is left open. -/
namespace CFloat

/-- The nearest integer, halves to even. -/
def roundEven (q : ℚ) : ℤ :=
  let n := ⌊q⌋
  if q - n < 1 / 2 then n
  else if 1 / 2 < q - n then n + 1
  else if n % 2 = 0 then n else n + 1

/-- The exponent of the leading binary digit. -/
def exponent (q : ℚ) : ℤ :=
  let e : ℤ := q.num.natAbs.log2 - q.den.log2
  if |q| < 2 ^ e then e - 1 else e

/-- The `float` nearest to a value. -/
def toFloat (q : ℚ) : ℚ :=
  let unit : ℚ := 2 ^ (exponent q - 23)
  roundEven (q / unit) * unit

-- the distance of neighbours between 2^30 and 2^31 is 128
example : toFloat 1700000060 = 1700000000 := by decide +kernel

example : toFloat 1700000065 = 1700000128 := by decide +kernel

/-- The value without its fraction. -/
def truncate (q : ℚ) : ℤ := if 0 ≤ q then ⌊q⌋ else ⌈q⌉

/-- The conversion to an `int`; a value outside its range gives the least one, as the
instruction of the x86 processors does. -/
def floatToInt (q : ℚ) : ℤ :=
  if -(2 ^ 31) ≤ truncate q ∧ truncate q < 2 ^ 31 then truncate q else -(2 ^ 31)

theorem truncate_mono {x y : ℚ} (le : x ≤ y) : truncate x ≤ truncate y := by
  unfold truncate
  split_ifs with pos pos' pos'
  · exact Int.floor_mono le
  · exact absurd (pos.trans le) pos'
  · exact (Int.ceil_le.2 (by simpa using (not_le.1 pos).le)).trans (Int.floor_nonneg.2 pos')
  · exact Int.ceil_mono le

end CFloat
