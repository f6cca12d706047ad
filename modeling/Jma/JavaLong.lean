import Mathlib.Algebra.Group.Int.Defs
import Mathlib.Algebra.Group.Nat.Defs
import Mathlib.Tactic.Common

set_option autoImplicit false

/-! # The arithmetic of `long`

A `long` is an integer, and an operation wraps its result into the range of 64-bit two's
complement. -/

namespace Jma

/-- The addition of two `long` values. -/
def addLong (a b : Int) : Int := (a + b).bmod (2 ^ 64)

/-- The subtraction of two `long` values. -/
def subLong (a b : Int) : Int := (a - b).bmod (2 ^ 64)

/-- The division of two `long` values, which rounds towards zero. Java throws for the divisor 0. -/
def divLong (a b : Int) : Int := (a.tdiv b).bmod (2 ^ 64)

theorem bmod_of_small {x : Int} (h0 : 0 ≤ x) (h1 : x < 2 ^ 63) : x.bmod (2 ^ 64) = x := by
  rw [Int.bmod_eq_of_le] <;> omega

theorem subLong_of_small {a b : Int} (h0 : 0 ≤ a - b) (h1 : a - b < 2 ^ 63) :
    subLong a b = a - b :=
  bmod_of_small h0 h1

theorem neg_le_addLong (a b : Int) : -2 ^ 63 ≤ addLong a b := by
  have h := Int.le_bmod (x := a + b) (m := 2 ^ 64) (by omega)
  rw [addLong]
  omega

/-- An addition that wraps at the upper end falls short of the sum. -/
theorem addLong_le {a b : Int} (h : -2 ^ 63 ≤ a + b) : addLong a b ≤ a + b := by
  rw [addLong, Int.bmod]
  split <;> omega

/-- The order of two additions does not matter, whether they wrap or not. -/
theorem addLong_right_comm (a b c : Int) : addLong (addLong a b) c = addLong (addLong a c) b := by
  simp only [addLong, Int.bmod_add_bmod, Int.add_right_comm a b c]

/-- The division of small values is the floor of the quotient. -/
theorem divLong_of_small {a b : Int} (h0 : 0 ≤ a) (h1 : a < 2 ^ 63) (hb : 0 < b) :
    divLong a b = a / b := by
  rw [divLong, Int.tdiv_eq_ediv_of_nonneg h0]
  exact bmod_of_small (Int.ediv_nonneg h0 (Int.le_of_lt hb))
    (Int.lt_of_le_of_lt (Int.ediv_le_self b h0) h1)

end Jma
