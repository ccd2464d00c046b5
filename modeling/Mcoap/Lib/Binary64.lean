import Mathlib.Algebra.Order.Field.Power
import Mathlib.Data.Int.Log
import Mathlib.Data.Rat.Floor
import Mathlib.Tactic.Linarith
import Mathlib.Tactic.NormNum
import Mathlib.Tactic.Ring

/-! # Doubles

    The finite numbers of IEEE 754 binary64 as rationals, and the rounding of
    a rational to the nearest of them.  There is no largest one here: what
    is rounded has to be far below the point where infinity begins.

    * `IsDouble`: 53 bits and an exponent;
    * `ulp`: the weight of the last of the 53 bits; `round`: the nearest
      double, and of two the even one;
    * `abs_round_sub_le`: rounding is off by half that weight at most;
    * `IsDouble.round_eq`: a double is its own rounding;
    * `IsDouble.fract`, `IsDouble.le_of_lt_one`: what is behind the point. -/

namespace Binary64

def IsDouble (x : ℚ) : Prop := ∃ m e : ℤ, |m| < 2 ^ 53 ∧ -1074 ≤ e ∧ x = m * 2 ^ e

/-- The exponent of the last place; the smallest one is that of the numbers
    with fewer than 53 bits. -/
def exponent (x : ℚ) : ℤ := if x = 0 then -1074 else max (Int.log 2 |x| - 52) (-1074)

def ulp (x : ℚ) : ℚ := 2 ^ exponent x

/-- The nearest integer, and the even one of two. -/
def roundEven (x : ℚ) : ℤ :=
  if x - ⌊x⌋ < 1 / 2 then ⌊x⌋
  else if 1 / 2 < x - ⌊x⌋ then ⌊x⌋ + 1
  else if ⌊x⌋ % 2 = 0 then ⌊x⌋
  else ⌊x⌋ + 1

def round (x : ℚ) : ℚ := roundEven (x / ulp x) * ulp x

variable {x : ℚ}

/-! ## Rounding to an integer -/

theorem abs_roundEven_sub_le (x : ℚ) : |(roundEven x : ℚ) - x| ≤ 1 / 2 := by
  have hle := Int.floor_le x
  have hlt := Int.lt_floor_add_one x
  rw [abs_le]
  unfold roundEven
  split_ifs
  · exact ⟨by linarith, by linarith⟩
  · push_cast
    exact ⟨by linarith, by linarith⟩
  · exact ⟨by linarith, by linarith⟩
  · push_cast
    exact ⟨by linarith, by linarith⟩

@[simp] theorem roundEven_intCast (n : ℤ) : roundEven n = n := by
  rw [roundEven, Int.floor_intCast, sub_self, if_pos (by norm_num)]

theorem roundEven_nonneg (h : 0 ≤ x) : 0 ≤ roundEven x := by
  have hfloor := Int.floor_nonneg.mpr h
  unfold roundEven
  split_ifs
  · exact hfloor
  · omega
  · exact hfloor
  · omega

/-! ## Rounding to a double -/

theorem ulp_pos (x : ℚ) : 0 < ulp x := zpow_pos (by norm_num) _

/-- The nearest double is half a last place away at most. -/
theorem abs_round_sub_le (x : ℚ) : |round x - x| ≤ ulp x / 2 := by
  have hpos := ulp_pos x
  have hscale : round x - x = (roundEven (x / ulp x) - x / ulp x) * ulp x := by
    rw [round, sub_mul, div_mul_cancel₀ _ hpos.ne']
  rw [hscale, abs_mul, abs_of_pos hpos]
  have hround := mul_le_mul_of_nonneg_right (abs_roundEven_sub_le (x / ulp x)) hpos.le
  linarith

theorem round_nonneg (h : 0 ≤ x) : 0 ≤ round x := by
  have hpos := ulp_pos x
  have hnum := roundEven_nonneg (div_nonneg h hpos.le)
  exact mul_nonneg (Int.cast_nonneg hnum) hpos.le

theorem exponent_le {k : ℤ} (hk : -1022 ≤ k) (h : |x| < 2 ^ (k + 1)) : exponent x ≤ k - 52 := by
  unfold exponent
  split_ifs with hx
  · omega
  · have hlog : Int.log 2 |x| < k + 1 :=
      (Int.lt_zpow_iff_log_lt (by norm_num) (abs_pos.mpr hx)).mp (by exact_mod_cast h)
    exact max_le (by omega) (by omega)

/-- A bound on the number is a bound on the weight of its last place. -/
theorem ulp_le {k : ℤ} (hk : -1022 ≤ k) (h : |x| < 2 ^ (k + 1)) : ulp x ≤ 2 ^ (k - 52) :=
  zpow_le_zpow_right₀ (by norm_num) (exponent_le hk h)

theorem neg_le_exponent (x : ℚ) : -1074 ≤ exponent x := by
  unfold exponent
  split_ifs
  · exact le_refl _
  · exact le_max_right _ _

/-- The number has no more than 53 bits in front of the last place. -/
theorem abs_lt_ulp (x : ℚ) : |x| < 2 ^ 53 * ulp x := by
  have hpos := ulp_pos x
  by_cases hx : x = 0
  · rw [hx, abs_zero]
    rw [hx] at hpos
    positivity
  · have hlog := Int.lt_zpow_succ_log_self (b := 2) (by norm_num) |x|
    have hexp : Int.log 2 |x| + 1 ≤ 53 + exponent x := by
      rw [exponent, if_neg hx]
      omega
    have hweight : (2 : ℚ) ^ 53 * ulp x = 2 ^ (53 + exponent x) := by
      rw [ulp, zpow_add₀ (by norm_num)]
      norm_num
    rw [hweight]
    refine lt_of_lt_of_le (by exact_mod_cast hlog) (zpow_le_zpow_right₀ (by norm_num) hexp)

/-! ## Doubles -/

/-- A rounded number is a double. -/
theorem isDouble_round (x : ℚ) : IsDouble (round x) := by
  have hpos := ulp_pos x
  have hquot : |x / ulp x| < 2 ^ 53 := by
    rw [abs_div, abs_of_pos hpos, div_lt_iff₀ hpos]
    exact abs_lt_ulp x
  have hnear := abs_roundEven_sub_le (x / ulp x)
  have hbound : |roundEven (x / ulp x)| ≤ 2 ^ 53 := by
    have hlt : |(roundEven (x / ulp x) : ℚ)| < 2 ^ 53 + 1 := by
      have htri := abs_add_le ((roundEven (x / ulp x) : ℚ) - x / ulp x) (x / ulp x)
      rw [sub_add_cancel] at htri
      linarith
    exact Int.lt_add_one_iff.mp (by exact_mod_cast hlt)
  rcases lt_or_eq_of_le hbound with hlt | heq
  · exact ⟨_, _, hlt, neg_le_exponent x, rfl⟩
  -- the bits are all carried
  · obtain ⟨m, hm, hone⟩ : ∃ m : ℤ, roundEven (x / ulp x) = m * 2 ^ 53 ∧ |m| = 1 := by
      rcases (abs_eq (by norm_num)).mp heq with h | h
      · exact ⟨1, by rw [h]; norm_num, by norm_num⟩
      · exact ⟨-1, by rw [h]; norm_num, by norm_num⟩
    refine ⟨m, 53 + exponent x, by rw [hone]; norm_num, by have := neg_le_exponent x; omega, ?_⟩
    rw [round, hm, ulp, zpow_add₀ (by norm_num)]
    push_cast
    ring

/-- A double is a multiple of the weight of its last place. -/
theorem IsDouble.eq_mul_ulp (h : IsDouble x) : ∃ n : ℤ, x = n * ulp x := by
  obtain ⟨m, e, hm, he, rfl⟩ := h
  have habs : |(m : ℚ) * 2 ^ e| < 2 ^ (e + 52 + 1) := by
    have hpow : (0 : ℚ) < 2 ^ e := zpow_pos (by norm_num) e
    have hcast : |(m : ℚ)| < 2 ^ 53 := by exact_mod_cast hm
    have hsplit : (2 : ℚ) ^ (e + 52 + 1) = 2 ^ 53 * 2 ^ e := by
      rw [add_assoc, zpow_add₀ (by norm_num), mul_comm]
      norm_num
    rw [abs_mul, abs_of_pos hpow, hsplit]
    exact mul_lt_mul_of_pos_right hcast hpow
  have hexp : exponent ((m : ℚ) * 2 ^ e) ≤ e := by
    have hle := exponent_le (k := e + 52) (by omega) habs
    omega
  obtain ⟨k, hk⟩ := Int.le.dest hexp
  refine ⟨m * 2 ^ k, ?_⟩
  have hsplit : (2 : ℚ) ^ e = 2 ^ k * ulp ((m : ℚ) * 2 ^ e) := by
    rw [ulp, ← zpow_natCast, ← zpow_add₀ (by norm_num), add_comm, hk]
  push_cast
  rw [mul_assoc, ← hsplit]

/-- A double is its own rounding. -/
theorem IsDouble.round_eq (h : IsDouble x) : round x = x := by
  obtain ⟨n, hn⟩ := h.eq_mul_ulp
  have hquot : x / ulp x = n := by
    rw [div_eq_iff (ulp_pos x).ne']
    exact hn
  rw [round, hquot, roundEven_intCast, ← hn]

theorem isDouble_zero : IsDouble 0 := ⟨0, 0, by norm_num, by norm_num, by norm_num⟩

/-- A double that is no integer, scaled to one. -/
theorem IsDouble.scaled (h : IsDouble x) :
    (∃ n : ℤ, x = n) ∨ ∃ (m : ℤ) (k : ℕ), |m| < 2 ^ 53 ∧ k ≤ 1074 ∧ x * 2 ^ k = m := by
  obtain ⟨m, e, hm, he, rfl⟩ := h
  rcases le_total 0 e with hpos | hneg
  · obtain ⟨k, rfl⟩ := Int.eq_ofNat_of_zero_le hpos
    exact Or.inl ⟨m * 2 ^ k, by push_cast; rw [zpow_natCast]⟩
  · obtain ⟨k, hk⟩ := Int.eq_ofNat_of_zero_le (Int.neg_nonneg.mpr hneg)
    refine Or.inr ⟨m, k, hm, by omega, ?_⟩
    have hcancel : (2 : ℚ) ^ e * 2 ^ k = 1 := by
      rw [← zpow_natCast, ← zpow_add₀ (by norm_num), ← hk, add_neg_cancel, zpow_zero]
    rw [mul_assoc, hcancel, mul_one]

/-- What is behind the point is a double. -/
theorem IsDouble.fract (h : IsDouble x) (h0 : 0 ≤ x) : IsDouble (x - ⌊x⌋) := by
  rcases h.scaled with ⟨n, rfl⟩ | ⟨m, k, hm, hk, hscaled⟩
  · rw [Int.floor_intCast, sub_self]
    exact isDouble_zero
  · have hpow : (0 : ℚ) < 2 ^ k := by positivity
    have hrest : (x - ⌊x⌋) * 2 ^ k = ((m - ⌊x⌋ * 2 ^ k : ℤ) : ℚ) := by
      push_cast
      rw [sub_mul, hscaled]
    refine ⟨m - ⌊x⌋ * 2 ^ k, -k, ?_, by omega, ?_⟩
    · have hlow : 0 ≤ (x - ⌊x⌋) * 2 ^ k :=
        mul_nonneg (sub_nonneg.mpr (Int.floor_le x)) hpow.le
      have hfloor : (0 : ℚ) ≤ ⌊x⌋ := Int.cast_nonneg (Int.floor_nonneg.mpr h0)
      have hhigh : (x - ⌊x⌋) * 2 ^ k ≤ x * 2 ^ k :=
        mul_le_mul_of_nonneg_right (by linarith) hpow.le
      rw [hrest] at hlow hhigh
      rw [hscaled] at hhigh
      have hlow' : 0 ≤ m - ⌊x⌋ * 2 ^ k := by exact_mod_cast hlow
      have hhigh' : m - ⌊x⌋ * 2 ^ k ≤ m := by exact_mod_cast hhigh
      rw [abs_of_nonneg hlow']
      exact hhigh'.trans_lt (abs_lt.mp hm).2
    · rw [← hrest, zpow_neg, zpow_natCast, mul_inv_cancel_right₀ hpow.ne']

/-- The largest double below 1. -/
theorem IsDouble.le_of_lt_one (h : IsDouble x) (h1 : x < 1) : x ≤ 1 - 1 / 2 ^ 53 := by
  rcases h.scaled with ⟨n, rfl⟩ | ⟨m, k, hm, _, hscaled⟩
  · have hn : n < 1 := by exact_mod_cast h1
    have hle : (n : ℚ) ≤ 0 := by exact_mod_cast Int.lt_add_one_iff.mp hn
    norm_num
    linarith
  · have hpow : (0 : ℚ) < 2 ^ k := by positivity
    have hm' := (abs_lt.mp hm).2
    rcases le_total k 53 with hk | hk
    -- the distance to 1 is a multiple of the last place
    · have hlt : (m : ℚ) < 2 ^ k := by
        rw [← hscaled]
        calc x * 2 ^ k < 1 * 2 ^ k := mul_lt_mul_of_pos_right h1 hpow
          _ = 2 ^ k := one_mul _
      have hint : m < 2 ^ k := by exact_mod_cast hlt
      have hle : (m : ℚ) ≤ 2 ^ k - 1 := by
        have hpred : m ≤ 2 ^ k - 1 := by omega
        exact_mod_cast hpred
      have hgap : (1 : ℚ) / 2 ^ 53 * 2 ^ k ≤ 1 := by
        rw [div_mul_eq_mul_div, one_mul, div_le_one (by positivity)]
        exact pow_le_pow_right₀ (by norm_num) hk
      have hall : x * 2 ^ k ≤ (1 - 1 / 2 ^ 53) * 2 ^ k := by
        rw [hscaled, sub_mul, one_mul]
        linarith
      exact le_of_mul_le_mul_right hall hpow
    -- there are 53 bits at most
    · have hle : (m : ℚ) ≤ 2 ^ 53 - 1 := by
        have hpred : m ≤ 2 ^ 53 - 1 := by omega
        exact_mod_cast hpred
      have hbig : (2 : ℚ) ^ 53 ≤ 2 ^ k := pow_le_pow_right₀ (by norm_num) hk
      have hall : x * 2 ^ k ≤ (1 - 1 / 2 ^ 53) * 2 ^ k := by
        rw [hscaled]
        linarith
      exact le_of_mul_le_mul_right hall hpow

end Binary64
