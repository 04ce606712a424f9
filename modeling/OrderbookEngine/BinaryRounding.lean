import Mathlib.Algebra.Order.Floor.Ring
import Mathlib.Data.Int.Log
import Mathlib.Tactic.Linarith
import Mathlib.Tactic.Ring

/-!
# Rounding to binary precision

A number is rounded to the nearest one with a given number of significant bits,
ties going to an even last bit. The range of exponents is not limited. Rounding
keeps the order of nonnegative numbers and keeps integers that fit, so that a
quotient of integers computed with it stays between exact integer bounds.
-/

namespace OrderbookEngine.BinaryRounding

variable {K : Type*} [Field K] [LinearOrder K] [IsStrictOrderedRing K] [FloorRing K]

/-- The nearest integer, the even one of two equally near. -/
def nearestEven (x : K) : ℤ :=
  if Int.fract x < 1 / 2 then ⌊x⌋
  else if 1 / 2 < Int.fract x then ⌊x⌋ + 1
  else if Even ⌊x⌋ then ⌊x⌋
  else ⌊x⌋ + 1

/-- The unit in the last place of a number with some significant bits. -/
def ulp (p : ℕ) (x : K) : K := 2 ^ (Int.log 2 |x| + 1 - p)

/-- The nearest number with some significant bits. -/
def roundTo (p : ℕ) (x : K) : K := nearestEven (x / ulp p x) * ulp p x

/-- The quotient of two integers that are rounded before and after the division. -/
def quotient (p : ℕ) (t c : ℤ) : K := roundTo p (roundTo p (t : K) / roundTo p (c : K))

section NearestEven

variable {x y : K}

/-- Integers are their own nearest ones. -/
@[simp] theorem nearestEven_intCast (m : ℤ) : nearestEven (m : K) = m := by
  rw [nearestEven, Int.fract_intCast, if_pos one_half_pos, Int.floor_intCast]

omit [IsStrictOrderedRing K] in
/-- Rounding goes no further down than the floor. -/
theorem floor_le_nearestEven (x : K) : ⌊x⌋ ≤ nearestEven x := by
  rw [nearestEven]
  split_ifs <;> omega

omit [IsStrictOrderedRing K] in
/-- Rounding goes no further up than the next integer. -/
theorem nearestEven_le (x : K) : nearestEven x ≤ ⌊x⌋ + 1 := by
  rw [nearestEven]
  split_ifs <;> omega

/-- Nearest integers are ordered like the numbers. -/
theorem nearestEven_mono (h : x ≤ y) : nearestEven x ≤ nearestEven y := by
  rcases (Int.floor_mono h).lt_or_eq with hlt | heq
  · exact (nearestEven_le x).trans ((Int.add_one_le_of_lt hlt).trans (floor_le_nearestEven y))
  · -- between the same integers the fractions decide
    have hfract : Int.fract x ≤ Int.fract y := by
      rw [Int.fract, Int.fract, heq]
      exact sub_le_sub_right h _
    rw [nearestEven, nearestEven, heq]
    by_cases hlow : Int.fract x < 1 / 2
    · rw [if_pos hlow]
      split_ifs <;> omega
    · have hlow' : ¬Int.fract y < 1 / 2 := fun hy => hlow (hfract.trans_lt hy)
      rw [if_neg hlow, if_neg hlow']
      by_cases hhigh : 1 / 2 < Int.fract y
      · rw [if_pos hhigh]
        split_ifs <;> omega
      · have hhigh' : ¬1 / 2 < Int.fract x := fun hx => hhigh (hx.trans_le hfract)
        rw [if_neg hhigh, if_neg hhigh']

/-- Integer bounds are kept. -/
theorem le_nearestEven {m : ℤ} (h : (m : K) ≤ x) : m ≤ nearestEven x := by
  simpa using nearestEven_mono h

/-- Integer bounds are kept. -/
theorem nearestEven_le_of_le {m : ℤ} (h : x ≤ m) : nearestEven x ≤ m := by
  simpa using nearestEven_mono h

end NearestEven

section RoundTo

variable {p : ℕ} {x y : K}

/-- The unit in the last place is positive. -/
theorem ulp_pos (p : ℕ) (x : K) : 0 < ulp p x := zpow_pos two_pos _

/-- Zero is rounded to itself. -/
@[simp] theorem roundTo_zero (p : ℕ) : roundTo p (0 : K) = 0 := by
  have hzero : nearestEven (0 : K) = 0 := by
    simpa using nearestEven_intCast (K := K) 0
  rw [roundTo, zero_div, hzero, Int.cast_zero, zero_mul]

/-- A number that its last place divides is kept. -/
theorem roundTo_of_div_ulp {m : ℤ} (h : x / ulp p x = m) : roundTo p x = x := by
  rw [roundTo, h, nearestEven_intCast, ← h, div_mul_cancel₀ _ (ulp_pos p x).ne']

/-- The power of two below a positive number is below what it is rounded to. -/
theorem zpow_log_le_roundTo (hp : 0 < p) (hx : 0 < x) : 2 ^ Int.log 2 x ≤ roundTo p x := by
  have hlow : (2 : K) ^ Int.log 2 x ≤ x := by
    exact_mod_cast Int.zpow_log_le_self one_lt_two hx
  have hscale : ((2 ^ (p - 1) : ℤ) : K) * ulp p x = 2 ^ Int.log 2 x := by
    rw [ulp, abs_of_pos hx, Int.cast_pow, Int.cast_ofNat, ← zpow_natCast, ← zpow_add₀ two_ne_zero]
    congr 1
    omega
  have hnear : (2 ^ (p - 1) : ℤ) ≤ nearestEven (x / ulp p x) := by
    refine le_nearestEven ?_
    rw [le_div_iff₀ (ulp_pos p x), hscale]
    exact hlow
  rw [← hscale, roundTo]
  exact mul_le_mul_of_nonneg_right (Int.cast_le.mpr hnear) (ulp_pos p x).le

/-- The next power of two is above what it is rounded to. -/
theorem roundTo_le_zpow_log (p : ℕ) (hx : 0 < x) : roundTo p x ≤ 2 ^ (Int.log 2 x + 1) := by
  have hhigh : x < (2 : K) ^ (Int.log 2 x + 1) := by
    exact_mod_cast Int.lt_zpow_succ_log_self one_lt_two x
  have hscale : ((2 ^ p : ℤ) : K) * ulp p x = 2 ^ (Int.log 2 x + 1) := by
    rw [ulp, abs_of_pos hx, Int.cast_pow, Int.cast_ofNat, ← zpow_natCast, ← zpow_add₀ two_ne_zero]
    congr 1
    omega
  have hnear : nearestEven (x / ulp p x) ≤ 2 ^ p := by
    refine nearestEven_le_of_le ?_
    rw [div_le_iff₀ (ulp_pos p x), hscale]
    exact hhigh.le
  rw [← hscale, roundTo]
  exact mul_le_mul_of_nonneg_right (Int.cast_le.mpr hnear) (ulp_pos p x).le

/-- Rounding keeps the order of nonnegative numbers. -/
theorem roundTo_mono (hp : 0 < p) (hx : 0 ≤ x) (h : x ≤ y) : roundTo p x ≤ roundTo p y := by
  rcases hx.eq_or_lt with rfl | hpos
  · rcases h.eq_or_lt with rfl | hy
    · exact le_refl _
    · rw [roundTo_zero]
      exact (zpow_pos two_pos _).le.trans (zpow_log_le_roundTo hp hy)
  have hy : 0 < y := hpos.trans_le h
  rcases (Int.log_mono_right (b := 2) hpos h).lt_or_eq with hlt | heq
  · -- a power of two separates the two
    have hpow : (2 : K) ^ (Int.log 2 x + 1) ≤ 2 ^ Int.log 2 y :=
      zpow_le_zpow_right₀ one_le_two (Int.add_one_le_of_lt hlt)
    exact (roundTo_le_zpow_log p hpos).trans (hpow.trans (zpow_log_le_roundTo hp hy))
  · have hulp : ulp p x = ulp p y := by
      rw [ulp, ulp, abs_of_pos hpos, abs_of_pos hy, heq]
    have hdiv : x / ulp p y ≤ y / ulp p y := div_le_div_of_nonneg_right h (ulp_pos p y).le
    rw [roundTo, roundTo, hulp]
    exact mul_le_mul_of_nonneg_right (Int.cast_le.mpr (nearestEven_mono hdiv)) (ulp_pos p y).le

/-- Integers with no more significant bits are kept. -/
theorem roundTo_natCast (hp : 0 < p) {m : ℕ} (hm : m ≤ 2 ^ p) : roundTo p (m : K) = m := by
  rcases m.eq_zero_or_pos with rfl | hpos
  · rw [Nat.cast_zero, roundTo_zero]
  have habs : |(m : K)| = m := abs_of_nonneg (Nat.cast_nonneg m)
  rcases hm.lt_or_eq with hlt | rfl
  · -- the last place is a fraction of one
    have hlog : Nat.log 2 m < p := Nat.log_lt_of_lt_pow hpos.ne' hlt
    obtain ⟨k, hk⟩ := Nat.exists_eq_add_of_lt hlog
    have hulp : ulp p (m : K) = ((2 : K) ^ k)⁻¹ := by
      rw [ulp, habs, Int.log_natCast, ← zpow_natCast, ← zpow_neg]
      congr 1
      omega
    refine roundTo_of_div_ulp (m := m * 2 ^ k) ?_
    rw [hulp, div_inv_eq_mul]
    push_cast
    rfl
  · obtain ⟨k, rfl⟩ : ∃ k, p = k + 1 := ⟨p - 1, by omega⟩
    have hulp : ulp (k + 1) ((2 ^ (k + 1) : ℕ) : K) = 2 := by
      rw [ulp, habs, Int.log_natCast, Nat.log_pow one_lt_two]
      simp
    refine roundTo_of_div_ulp (m := 2 ^ k) ?_
    rw [hulp, Nat.cast_pow, Nat.cast_ofNat, pow_succ, mul_div_cancel_right₀ _ two_ne_zero]
    push_cast
    rfl

/-- A rounded quotient is between integers that the exact one is between. -/
theorem quotient_between (hp : 0 < p) {a b t c : ℤ} (ha : 0 ≤ a) (hc : 0 < c) (ht : t ≤ 2 ^ p)
    (hcount : c ≤ 2 ^ p) (hb : b ≤ 2 ^ p) (hlow : c * a ≤ t) (hhigh : t ≤ c * b) :
    (a : K) ≤ quotient p t c ∧ (quotient p t c : K) ≤ b := by
  have hab : a ≤ b := le_of_mul_le_mul_left (hlow.trans hhigh) hc
  have hkept : ∀ {m : ℤ}, 0 ≤ m → m ≤ 2 ^ p → roundTo p (m : K) = m := by
    intro m hm hle
    lift m to ℕ using hm
    rw [Int.cast_natCast]
    exact roundTo_natCast hp (by exact_mod_cast hle)
  have hpos : (0 : K) < c := Int.cast_pos.mpr hc
  have hlow' : (a : K) ≤ t / c := by
    rw [le_div_iff₀ hpos, mul_comm]
    exact_mod_cast hlow
  have hhigh' : (t : K) / c ≤ b := by
    rw [div_le_iff₀ hpos, mul_comm]
    exact_mod_cast hhigh
  have hnonneg : (0 : K) ≤ a := by
    exact_mod_cast ha
  rw [quotient, hkept ((mul_nonneg hc.le ha).trans hlow) ht, hkept hc.le hcount]
  constructor
  · rw [← hkept ha (hab.trans hb)]
    exact roundTo_mono hp hnonneg hlow'
  · rw [← hkept (ha.trans hab) hb]
    exact roundTo_mono hp (hnonneg.trans hlow') hhigh'

end RoundTo

end OrderbookEngine.BinaryRounding
