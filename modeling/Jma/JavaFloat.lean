import Jma.Lib.Rounding
import Mathlib.Data.Rat.Floor

set_option autoImplicit false

/-! # The arithmetic of `float`

A `float` is what a rational number is rounded to, with 24 bits of precision. The program converts
`long` values and divides them, so no value comes near the ends of the exponent range, and the only
zero it makes is the positive one. -/

namespace Jma

/-- A `float`. -/
inductive JavaFloat where
  | nan
  | infinite (negative : Bool)
  | finite (x : ℚ)
  deriving DecidableEq, Repr

/-- The finite `float` nearest to a number. -/
def roundFloat (x : ℚ) : ℚ := Rounding.round 24 x

/-- The conversion `(float) n` of a `long`. -/
def toFloat (n : Int) : ℚ := roundFloat n

/-- The division of two finite `float` values, zero being positive. -/
def divFloat (a b : ℚ) : JavaFloat :=
  if b = 0 then
    if a = 0 then .nan else .infinite (decide (a < 0))
  else .finite (roundFloat (a / b))

/-- The comparison `x >= y` with a finite `y`; with `NaN` it is false. -/
def JavaFloat.ge (x : JavaFloat) (y : ℚ) : Bool :=
  match x with
  | .nan => false
  | .infinite negative => !negative
  | .finite x => decide (y ≤ x)

/-- `0.1f`. -/
def tenth : ℚ := roundFloat (1 / 10)

example : tenth = 13421773 / 2 ^ 27 := by decide +kernel

theorem roundFloat_mono {x y : ℚ} (hx : 0 ≤ x) (h : x ≤ y) : roundFloat x ≤ roundFloat y :=
  Rounding.round_mono (by decide) hx h

/-- `0.1f` is a little more than a tenth. -/
theorem lt_tenth : 1 / 10 < tenth := by decide +kernel

theorem toFloat_nonneg {n : Int} (h : 0 ≤ n) : 0 ≤ toFloat n :=
  Rounding.round_nonneg 24 (by exact_mod_cast h)

theorem toFloat_mono {m n : Int} (hm : 0 ≤ m) (h : m ≤ n) : toFloat m ≤ toFloat n :=
  roundFloat_mono (by exact_mod_cast hm) (by exact_mod_cast h)

/-- A `float` holds the integers up to `2 ^ 24`. -/
theorem toFloat_of_le {n : Int} (h0 : 0 ≤ n) (h : n ≤ 2 ^ 24) : toFloat n = n := by
  obtain ⟨k, rfl⟩ := Int.eq_ofNat_of_zero_le h0
  exact Rounding.round_natCast (by decide) (by exact_mod_cast h)

theorem toFloat_le {n : Int} (h : 0 ≤ n) : toFloat n ≤ n * (1 + 1 / 2 ^ 24) :=
  Rounding.round_le 24 (by exact_mod_cast h)

theorem le_toFloat {n : Int} (h : 0 ≤ n) : n * (1 - 1 / 2 ^ 24) ≤ toFloat n :=
  Rounding.le_round 24 (by exact_mod_cast h)

theorem toFloat_pos {n : Int} (h : 0 < n) : 0 < toFloat n := by
  have hn : (0 : ℚ) < n := by exact_mod_cast h
  refine lt_of_lt_of_le ?_ (le_toFloat h.le)
  exact mul_pos hn (by norm_num)

end Jma
