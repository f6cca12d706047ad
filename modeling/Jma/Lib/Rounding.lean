import Mathlib.Algebra.Order.Round
import Mathlib.Data.Int.Log
import Mathlib.Tactic.Linarith
import Mathlib.Tactic.Positivity
import Mathlib.Tactic.Ring

set_option autoImplicit false

/-! # Rounding to a binary precision

A binary floating-point format of precision `p` holds the numbers `m * 2 ^ k` with `|m| ≤ 2 ^ p`.
`Rounding.round p x` is the one nearest to `x`, and where two are equally near the one with the even
`m`, as IEEE 754 rounds by default. The exponent is not bounded, so nothing here overflows or is
subnormal. -/

namespace Rounding

universe u

variable {K : Type u} [Field K] [LinearOrder K] [IsStrictOrderedRing K] [FloorRing K]

/-! ## To an integer -/

/-- The integer nearest to `x`, half-way cases going to the even one. -/
def halfEven (x : K) : ℤ :=
  if Int.fract x < 1 / 2 then ⌊x⌋
  else if 1 / 2 < Int.fract x then ⌊x⌋ + 1
  else if Even ⌊x⌋ then ⌊x⌋ else ⌊x⌋ + 1

omit [IsStrictOrderedRing K] in
theorem floor_le_halfEven (x : K) : ⌊x⌋ ≤ halfEven x := by
  unfold halfEven
  split_ifs <;> omega

omit [IsStrictOrderedRing K] in
theorem halfEven_le_floor_succ (x : K) : halfEven x ≤ ⌊x⌋ + 1 := by
  unfold halfEven
  split_ifs <;> omega

@[simp] theorem halfEven_intCast (n : ℤ) : halfEven (n : K) = n := by
  rw [halfEven, Int.fract_intCast, Int.floor_intCast, if_pos (by positivity)]

/-- Between two integers the choice only moves upwards. -/
theorem halfEven_mono {x y : K} (h : x ≤ y) : halfEven x ≤ halfEven y := by
  rcases (Int.floor_mono h).lt_or_eq with hlt | heq
  · have hx := halfEven_le_floor_succ x
    have hy := floor_le_halfEven y
    omega
  · have hfract : Int.fract x ≤ Int.fract y := by
      rw [Int.fract, Int.fract, heq]
      exact sub_le_sub_right h _
    unfold halfEven
    rw [heq]
    -- the same integers above and below, so only the order of the fractional parts counts
    by_cases hy : Int.fract y < 1 / 2
    · rw [if_pos hy, if_pos (hfract.trans_lt hy)]
    · rw [if_neg hy]
      by_cases hx : Int.fract x < 1 / 2
      · rw [if_pos hx]
        split_ifs <;> omega
      · rw [if_neg hx]
        by_cases hx' : 1 / 2 < Int.fract x
        · rw [if_pos hx', if_pos (hx'.trans_le hfract)]
        · rw [if_neg hx']
          split_ifs <;> omega

theorem abs_halfEven_sub_le (x : K) : |(halfEven x : K) - x| ≤ 1 / 2 := by
  have hfloor := Int.floor_add_fract x
  have hpos := Int.fract_nonneg x
  have hone := Int.fract_lt_one x
  unfold halfEven
  split_ifs with hlow hhigh heven
  · rw [abs_le]
    exact ⟨by linarith, by linarith⟩
  · push_cast
    rw [abs_le]
    exact ⟨by linarith, by linarith⟩
  · rw [abs_le]
    exact ⟨by linarith, by linarith⟩
  · push_cast
    rw [abs_le]
    exact ⟨by linarith, by linarith⟩

/-! ## To a precision -/

/-- The distance of neighbouring numbers of precision `p` in the binade of `x`. -/
def ulp (p : ℕ) (x : K) : K := 2 ^ (Int.log 2 |x| - p + 1)

/-- `x` rounded to precision `p`. -/
def round (p : ℕ) (x : K) : K := halfEven (x / ulp p x) * ulp p x

theorem ulp_pos (p : ℕ) (x : K) : 0 < ulp p x := zpow_pos two_pos _

@[simp] theorem round_zero (p : ℕ) : round p (0 : K) = 0 := by
  have hzero : halfEven (0 : K) = 0 := by exact_mod_cast halfEven_intCast (K := K) 0
  rw [round, zero_div, hzero, Int.cast_zero, zero_mul]

theorem round_nonneg (p : ℕ) {x : K} (h : 0 ≤ x) : 0 ≤ round p x := by
  have hzero : halfEven (0 : K) = 0 := by exact_mod_cast halfEven_intCast (K := K) 0
  have hint : 0 ≤ halfEven (x / ulp p x) :=
    hzero ▸ halfEven_mono (div_nonneg h (ulp_pos p x).le)
  exact mul_nonneg (by exact_mod_cast hint) (ulp_pos p x).le

/-- A power of two, counted in the distances of its own binade or of one below. -/
theorem two_zpow_eq_mul_ulp {p n : ℕ} {x : K} {k : ℤ} (h : k = Int.log 2 |x| - p + 1 + n) :
    (2 : K) ^ k = ((2 ^ n : ℤ) : K) * ulp p x := by
  have htwo : (0 : K) < 2 := two_pos
  rw [ulp, h, zpow_add₀ htwo.ne', zpow_natCast, mul_comm]
  push_cast
  rfl

/-- A number is rounded to at most the next power of two. -/
theorem round_le_zpow (p : ℕ) {x : K} (h : 0 < x) : round p x ≤ 2 ^ (Int.log 2 x + 1) := by
  have hpow : (2 : K) ^ (Int.log 2 x + 1) = ((2 ^ p : ℤ) : K) * ulp p x :=
    two_zpow_eq_mul_ulp (by rw [abs_of_pos h]; ring)
  have hlt : x < 2 ^ (Int.log 2 x + 1) := by
    exact_mod_cast Int.lt_zpow_succ_log_self one_lt_two x
  have hle : halfEven (x / ulp p x) ≤ 2 ^ p := by
    rw [← halfEven_intCast (K := K) (2 ^ p)]
    refine halfEven_mono ?_
    rw [div_le_iff₀ (ulp_pos p x), ← hpow]
    exact hlt.le
  rw [hpow]
  exact mul_le_mul_of_nonneg_right (by exact_mod_cast hle) (ulp_pos p x).le

/-- A number is rounded to at least the last power of two. -/
theorem zpow_le_round {p : ℕ} (hp : 0 < p) {x : K} (h : 0 < x) :
    2 ^ Int.log 2 x ≤ round p x := by
  have hpow : (2 : K) ^ Int.log 2 x = ((2 ^ (p - 1) : ℤ) : K) * ulp p x :=
    two_zpow_eq_mul_ulp (by rw [abs_of_pos h]; omega)
  have hle : (2 : K) ^ Int.log 2 x ≤ x := by
    exact_mod_cast Int.zpow_log_le_self one_lt_two h
  have hge : 2 ^ (p - 1) ≤ halfEven (x / ulp p x) := by
    rw [← halfEven_intCast (K := K) (2 ^ (p - 1))]
    refine halfEven_mono ?_
    rw [le_div_iff₀ (ulp_pos p x), ← hpow]
    exact hle
  rw [hpow]
  exact mul_le_mul_of_nonneg_right (by exact_mod_cast hge) (ulp_pos p x).le

/-- **Rounding keeps the order.** -/
theorem round_mono {p : ℕ} (hp : 0 < p) {x y : K} (hx : 0 ≤ x) (h : x ≤ y) :
    round p x ≤ round p y := by
  rcases hx.eq_or_lt with rfl | hx
  · rw [round_zero]
    exact round_nonneg p h
  · have hy : 0 < y := hx.trans_le h
    rcases (Int.log_mono_right (b := 2) hx h).lt_or_eq with hlt | heq
    · -- a power of two lies between them
      calc round p x ≤ 2 ^ (Int.log 2 x + 1) := round_le_zpow p hx
        _ ≤ 2 ^ Int.log 2 y := zpow_le_zpow_right₀ one_le_two (by omega)
        _ ≤ round p y := zpow_le_round hp hy
    · have hulp : ulp p x = ulp p y := by
        rw [ulp, ulp, abs_of_pos hx, abs_of_pos hy, heq]
      rw [round, round, hulp]
      refine mul_le_mul_of_nonneg_right ?_ (ulp_pos p y).le
      have hle := halfEven_mono (div_le_div_of_nonneg_right h (ulp_pos p y).le)
      exact_mod_cast hle

/-- **The relative error of rounding.** -/
theorem abs_round_sub_le (p : ℕ) (x : K) : |round p x - x| ≤ |x| / 2 ^ p := by
  rcases eq_or_ne x 0 with rfl | hx
  · simp
  · have hulp := ulp_pos p x
    have hsplit : round p x - x = (halfEven (x / ulp p x) - x / ulp p x) * ulp p x := by
      rw [sub_mul, div_mul_cancel₀ x hulp.ne', round]
    have hlog : (2 : K) ^ Int.log 2 |x| ≤ |x| := by
      exact_mod_cast Int.zpow_log_le_self one_lt_two (abs_pos.2 hx)
    have hhalf : 1 / 2 * ulp p x = 2 ^ Int.log 2 |x| / 2 ^ p := by
      rw [ulp, zpow_add₀ two_ne_zero, zpow_sub₀ two_ne_zero, zpow_natCast, zpow_one]
      ring
    calc |round p x - x| = |(halfEven (x / ulp p x) : K) - x / ulp p x| * ulp p x := by
          rw [hsplit, abs_mul, abs_of_pos hulp]
      _ ≤ 1 / 2 * ulp p x := mul_le_mul_of_nonneg_right (abs_halfEven_sub_le _) hulp.le
      _ = 2 ^ Int.log 2 |x| / 2 ^ p := hhalf
      _ ≤ |x| / 2 ^ p := div_le_div_of_nonneg_right hlog (by positivity)

theorem round_le (p : ℕ) {x : K} (h : 0 ≤ x) : round p x ≤ x * (1 + 1 / 2 ^ p) := by
  have herr := abs_round_sub_le p x
  rw [abs_of_nonneg h, abs_le] at herr
  have := herr.2
  rw [mul_add, mul_one, mul_one_div]
  linarith

theorem le_round (p : ℕ) {x : K} (h : 0 ≤ x) : x * (1 - 1 / 2 ^ p) ≤ round p x := by
  have herr := abs_round_sub_le p x
  rw [abs_of_nonneg h, abs_le] at herr
  have := herr.1
  rw [mul_sub, mul_one, mul_one_div]
  linarith

/-- **What rounding keeps.** A natural number is kept up to `2 ^ p`. -/
theorem round_natCast {p n : ℕ} (hp : 0 < p) (h : n ≤ 2 ^ p) : round p (n : K) = n := by
  rcases Nat.eq_zero_or_pos n with rfl | hn
  · rw [Nat.cast_zero, round_zero]
  · have habs : |(n : K)| = n := abs_of_pos (by exact_mod_cast hn)
    have hlog : Int.log 2 |(n : K)| = (Nat.log 2 n : ℤ) := by rw [habs, Int.log_natCast]
    have hle : Nat.log 2 n ≤ p :=
      (Nat.log_mono_right h).trans_eq (Nat.log_pow one_lt_two p)
    -- `n` is an integral multiple of the distance in its binade
    suffices hint : ∃ m : ℤ, (n : K) = m * ulp p (n : K) by
      obtain ⟨m, hm⟩ := hint
      have hdiv : (n : K) / ulp p (n : K) = m := by
        rw [div_eq_iff (ulp_pos p _).ne']
        exact hm
      rw [round, hdiv, halfEven_intCast]
      exact hm.symm
    rcases hle.lt_or_eq with hlt | heq
    · refine ⟨n * 2 ^ (p - 1 - Nat.log 2 n), ?_⟩
      have hone : (1 : K) = ((2 ^ (p - 1 - Nat.log 2 n) : ℤ) : K) * ulp p (n : K) := by
        rw [← two_zpow_eq_mul_ulp (k := 0) (by rw [hlog]; omega), zpow_zero]
      rw [Int.cast_mul, mul_assoc, ← hone, mul_one, Int.cast_natCast]
    · obtain rfl : n = 2 ^ p := le_antisymm h (heq ▸ Nat.pow_log_le_self 2 hn.ne')
      refine ⟨2 ^ (p - 1), ?_⟩
      rw [← two_zpow_eq_mul_ulp (k := p) (by rw [hlog, heq]; omega), zpow_natCast, Nat.cast_pow,
        Nat.cast_ofNat]

end Rounding
