/-
The errors of rounding.

The nearest number is off by at most `unit` times the value, and where the numbers lie no
denser, by half of their distance `tiny`.  A sum of two numbers has no error of the second
kind.  An exponential average takes four roundings, and so leaves the bounds of its arguments
by a few units each time.
-/
import AdaptiveGateway.Numeric.Binary64

namespace Numeric

/-- The largest relative error. -/
def unit : ℚ := 1 / 2 ^ 53

/-- The distance between the smallest numbers. -/
def tiny : ℚ := 2 ^ (-1074 : ℤ)

theorem unit_pos : 0 < unit := by norm_num [unit]

theorem unit_lt_one : unit < 1 := by norm_num [unit]

theorem tiny_pos : 0 < tiny := two_zpow_pos _

/-! ## One operation -/

theorem abs_nearest_sub_le (q : ℚ) : |nearest q - q| ≤ ulp q / 2 := by
  have hu := ulp_pos q
  have hsplit : nearest q - q = (roundHalfEven (q / ulp q) - q / ulp q) * ulp q := by
    rw [nearest, sub_mul, div_mul_cancel₀ q hu.ne']
  calc |nearest q - q| = |(roundHalfEven (q / ulp q) : ℚ) - q / ulp q| * ulp q := by
        rw [hsplit, abs_mul, abs_of_pos hu]
    _ ≤ 1 / 2 * ulp q :=
        mul_le_mul_of_nonneg_right (abs_roundHalfEven_sub_le (q / ulp q)) hu.le
    _ = ulp q / 2 := by ring

/-- The last place of a number that is not among the smallest. -/
theorem ulp_le {q : ℚ} (hq : (2 : ℚ) ^ (-1022 : ℤ) ≤ |q|) : ulp q ≤ 2 * unit * |q| := by
  have hpos : 0 < |q| := lt_of_lt_of_le (two_zpow_pos _) hq
  have hlog : -1022 ≤ Int.log 2 |q| := by
    rw [← Int.zpow_le_iff_le_log (by norm_num) hpos]
    exact_mod_cast hq
  have hexp : exponent q = Int.log 2 |q| - 52 := max_eq_left (by omega)
  have hle : (2 : ℚ) ^ Int.log 2 |q| ≤ |q| := by
    exact_mod_cast Int.zpow_log_le_self (b := 2) (by norm_num) hpos
  have hsplit : (2 : ℚ) ^ Int.log 2 |q| = 2 ^ 52 * ulp q := by
    rw [ulp, hexp, ← two_zpow_add]
    congr 1
    omega
  rw [hsplit] at hle
  rw [unit]
  linarith

theorem ulp_of_small {q : ℚ} (hq : |q| < 2 ^ (-1022 : ℤ)) (h₀ : q ≠ 0) : ulp q = tiny := by
  have hpos : 0 < |q| := abs_pos.mpr h₀
  have hlog : Int.log 2 |q| < -1022 := by
    rw [← Int.lt_zpow_iff_log_lt (by norm_num) hpos]
    exact_mod_cast hq
  rw [ulp, exponent, max_eq_right (by omega), tiny]

/-- The error of an operation whose result can be anything. -/
theorem abs_nearest_sub_le_add (q : ℚ) : |nearest q - q| ≤ unit * |q| + tiny / 2 := by
  have hclose := abs_nearest_sub_le q
  have hrelative := mul_nonneg unit_pos.le (abs_nonneg q)
  have htiny := tiny_pos
  rcases le_or_gt ((2 : ℚ) ^ (-1022 : ℤ)) |q| with hq | hq
  · linarith [ulp_le hq]
  · by_cases h₀ : q = 0
    · rw [h₀, nearest_zero, sub_self, abs_zero, mul_zero, zero_add]
      linarith
    · rw [ulp_of_small hq h₀] at hclose
      linarith

theorem Representable.multiple_tiny {r : ℚ} (hr : Representable r) : ∃ n : ℤ, r = n * tiny := by
  obtain ⟨m, e, -, he, rfl⟩ := hr
  obtain ⟨k, rfl⟩ : ∃ k : ℕ, e = k + -1074 := ⟨(e + 1074).toNat, by omega⟩
  refine ⟨m * 2 ^ k, ?_⟩
  rw [two_zpow_add, tiny, Int.cast_mul, Int.cast_pow, Int.cast_ofNat, mul_assoc]

/-- A small sum is exact. -/
theorem representable_add {p q : ℚ} (hp : Representable p) (hq : Representable q)
    (hsmall : |p + q| < 2 ^ (-1022 : ℤ)) : Representable (p + q) := by
  obtain ⟨m, rfl⟩ := hp.multiple_tiny
  obtain ⟨n, rfl⟩ := hq.multiple_tiny
  rw [← add_mul] at hsmall ⊢
  refine ⟨m + n, -1074, ?_, le_rfl, by rw [tiny, Int.cast_add]⟩
  have hlimit : (2 : ℚ) ^ (-1022 : ℤ) = 2 ^ 52 * tiny := by
    rw [show (-1022 : ℤ) = ((52 : ℕ) : ℤ) + -1074 by norm_num, two_zpow_add, tiny]
  rw [hlimit, abs_mul, abs_of_pos tiny_pos] at hsmall
  have hlt : |(m : ℚ) + n| < 2 ^ 52 := lt_of_mul_lt_mul_right hsmall tiny_pos.le
  have hlt' : |m + n| < 2 ^ 52 := by exact_mod_cast hlt
  omega

/-- The error of a sum. -/
theorem abs_nearest_add_sub_le {p q : ℚ} (hp : Representable p) (hq : Representable q) :
    |nearest (p + q) - (p + q)| ≤ unit * |p + q| := by
  rcases le_or_gt ((2 : ℚ) ^ (-1022 : ℤ)) |p + q| with h | h
  · have hclose := abs_nearest_sub_le (p + q)
    linarith [ulp_le h]
  · rw [nearest_eq_self (representable_add hp hq h), sub_self, abs_zero]
    exact mul_nonneg unit_pos.le (abs_nonneg _)

section Nonneg

variable {p q : ℚ}

theorem nearest_le_of_nonneg (h₀ : 0 ≤ q) : nearest q ≤ (1 + unit) * q + tiny / 2 := by
  have h := (abs_le.mp (abs_nearest_sub_le_add q)).2
  rw [abs_of_nonneg h₀] at h
  linarith

theorem le_nearest_of_nonneg (h₀ : 0 ≤ q) : (1 - unit) * q - tiny / 2 ≤ nearest q := by
  have h := (abs_le.mp (abs_nearest_sub_le_add q)).1
  rw [abs_of_nonneg h₀] at h
  linarith

variable (hp : Representable p) (hq : Representable q) (h₀ : 0 ≤ p + q)

include hp hq h₀

theorem nearest_add_le : nearest (p + q) ≤ (1 + unit) * (p + q) := by
  have h := (abs_le.mp (abs_nearest_add_sub_le hp hq)).2
  rw [abs_of_nonneg h₀] at h
  linarith

theorem le_nearest_add : (1 - unit) * (p + q) ≤ nearest (p + q) := by
  have h := (abs_le.mp (abs_nearest_add_sub_le hp hq)).1
  rw [abs_of_nonneg h₀] at h
  linarith

end Nonneg

/-! ## One average -/

/-- `α * x + (1 - α) * y`, rounded after each operation. -/
def mean (α x y : ℚ) : ℚ := nearest (nearest (α * x) + nearest (nearest (1 - α) * y))

section Mean

variable {α x y : ℚ} (hα : Representable α) (h₀ : 0 ≤ α) (h₁ : α ≤ 1) (hx : 0 ≤ x) (hy : 0 ≤ y)

include hα h₀ h₁ hx hy

theorem mean_le : mean α x y ≤ (1 + unit) ^ 3 * (α * x + (1 - α) * y + tiny) := by
  have hu := unit_pos
  have ht := tiny_pos
  have hβ₀ : 0 ≤ nearest (1 - α) := nearest_nonneg (by linarith)
  have hβ : nearest (1 - α) ≤ (1 + unit) * (1 - α) := by
    have h := nearest_add_le representable_one hα.neg (by linarith)
    rwa [← sub_eq_add_neg] at h
  have hαx := mul_nonneg h₀ hx
  have hβy := mul_nonneg (by linarith : 0 ≤ 1 - α) hy
  have hleft : nearest (α * x) ≤ (1 + unit) ^ 2 * (α * x) + tiny / 2 :=
    (nearest_le_of_nonneg hαx).trans (by
      gcongr
      exact le_self_pow₀ (by linarith) two_ne_zero)
  have hright : nearest (nearest (1 - α) * y) ≤ (1 + unit) ^ 2 * ((1 - α) * y) + tiny / 2 :=
    calc nearest (nearest (1 - α) * y)
        ≤ (1 + unit) * (nearest (1 - α) * y) + tiny / 2 :=
          nearest_le_of_nonneg (mul_nonneg hβ₀ hy)
      _ ≤ (1 + unit) * ((1 + unit) * (1 - α) * y) + tiny / 2 := by gcongr
      _ = (1 + unit) ^ 2 * ((1 - α) * y) + tiny / 2 := by ring
  have hsum : nearest (α * x) + nearest (nearest (1 - α) * y) ≤
      (1 + unit) ^ 2 * (α * x + (1 - α) * y + tiny) := by
    have htiny : tiny ≤ (1 + unit) ^ 2 * tiny :=
      le_mul_of_one_le_left ht.le (one_le_pow₀ (by linarith))
    linarith
  calc mean α x y
      ≤ (1 + unit) * (nearest (α * x) + nearest (nearest (1 - α) * y)) :=
        nearest_add_le (representable_nearest _) (representable_nearest _)
          (add_nonneg (nearest_nonneg hαx) (nearest_nonneg (mul_nonneg hβ₀ hy)))
    _ ≤ (1 + unit) * ((1 + unit) ^ 2 * (α * x + (1 - α) * y + tiny)) := by gcongr
    _ = (1 + unit) ^ 3 * (α * x + (1 - α) * y + tiny) := by ring

theorem le_mean : (1 - unit) ^ 3 * (α * x + (1 - α) * y) - tiny ≤ mean α x y := by
  have hu := unit_pos
  have hu₁ : 0 ≤ 1 - unit := by linarith [unit_lt_one]
  have ht := tiny_pos
  have hβ₀ : 0 ≤ nearest (1 - α) := nearest_nonneg (by linarith)
  have hβ : (1 - unit) * (1 - α) ≤ nearest (1 - α) := by
    have h := le_nearest_add representable_one hα.neg (by linarith)
    rwa [← sub_eq_add_neg] at h
  have hαx := mul_nonneg h₀ hx
  have hβy := mul_nonneg (by linarith : 0 ≤ 1 - α) hy
  have hleft : (1 - unit) ^ 2 * (α * x) - tiny / 2 ≤ nearest (α * x) := by
    refine le_trans ?_ (le_nearest_of_nonneg hαx)
    gcongr
    exact pow_le_of_le_one hu₁ (by linarith) two_ne_zero
  have hright : (1 - unit) ^ 2 * ((1 - α) * y) - tiny / 2 ≤ nearest (nearest (1 - α) * y) :=
    calc (1 - unit) ^ 2 * ((1 - α) * y) - tiny / 2
        = (1 - unit) * ((1 - unit) * (1 - α) * y) - tiny / 2 := by ring
      _ ≤ (1 - unit) * (nearest (1 - α) * y) - tiny / 2 := by gcongr
      _ ≤ nearest (nearest (1 - α) * y) := le_nearest_of_nonneg (mul_nonneg hβ₀ hy)
  have hsum : (1 - unit) ^ 2 * (α * x + (1 - α) * y) - tiny ≤
      nearest (α * x) + nearest (nearest (1 - α) * y) := by linarith
  calc (1 - unit) ^ 3 * (α * x + (1 - α) * y) - tiny
      ≤ (1 - unit) * ((1 - unit) ^ 2 * (α * x + (1 - α) * y) - tiny) := by nlinarith
    _ ≤ (1 - unit) * (nearest (α * x) + nearest (nearest (1 - α) * y)) := by gcongr
    _ ≤ mean α x y :=
        le_nearest_add (representable_nearest _) (representable_nearest _)
          (add_nonneg (nearest_nonneg hαx) (nearest_nonneg (mul_nonneg hβ₀ hy)))

end Mean

/-! ## Many averages -/

/-- A number is in bounds up to the errors of `n` averages. -/
structure Within (lo hi : ℚ) (n : ℕ) (e : ℚ) : Prop where
  lower : (1 - unit) ^ (3 * n) * lo - n * tiny ≤ e
  upper : e ≤ (1 + unit) ^ (3 * n) * (hi + n * tiny)

theorem within_zero {lo hi e : ℚ} (hlo : lo ≤ e) (hhi : e ≤ hi) : Within lo hi 0 e :=
  ⟨by simpa using hlo, by simpa using hhi⟩

/-- One more average with an argument in the bounds. -/
theorem Within.mean {α x y lo hi : ℚ} {n : ℕ} (h : Within lo hi n y) (hα : Representable α)
    (h₀ : 0 ≤ α) (h₁ : α ≤ 1) (hlo₀ : 0 ≤ lo) (hlo : lo ≤ x) (hhi : x ≤ hi) (hy : 0 ≤ y) :
    Within lo hi (n + 1) (mean α x y) := by
  have hu := unit_pos
  have hu₁ : 0 ≤ 1 - unit := by linarith [unit_lt_one]
  have ht := tiny_pos
  have hβ₀ : 0 ≤ 1 - α := by linarith
  have hnt : 0 ≤ n * tiny := mul_nonneg n.cast_nonneg ht.le
  constructor
  · have hpow : (1 - unit) ^ (3 * n) ≤ 1 := pow_le_one₀ hu₁ (by linarith)
    have hpow₃ : (1 - unit) ^ 3 ≤ 1 := pow_le_one₀ hu₁ (by linarith)
    have hpow₀ : 0 ≤ (1 - unit) ^ 3 := pow_nonneg hu₁ 3
    have hx : (1 - unit) ^ (3 * n) * lo - n * tiny ≤ x := by nlinarith
    have hmean : (1 - unit) ^ (3 * n) * lo - n * tiny ≤ α * x + (1 - α) * y := by
      nlinarith [mul_le_mul_of_nonneg_left hx h₀, mul_le_mul_of_nonneg_left h.lower hβ₀]
    refine le_trans ?_ (le_mean hα h₀ h₁ (hlo₀.trans hlo) hy)
    have hstep := mul_le_mul_of_nonneg_left hmean hpow₀
    have hsplit : (1 - unit) ^ (3 * (n + 1)) = (1 - unit) ^ 3 * (1 - unit) ^ (3 * n) := by ring
    rw [hsplit]
    push_cast
    nlinarith
  · have hpow : 1 ≤ (1 + unit) ^ (3 * n) := one_le_pow₀ (by linarith)
    have hpow₀ : 0 ≤ (1 + unit) ^ 3 := pow_nonneg (by linarith) 3
    have hx : x ≤ (1 + unit) ^ (3 * n) * (hi + n * tiny) := by nlinarith
    have hmean : α * x + (1 - α) * y ≤ (1 + unit) ^ (3 * n) * (hi + n * tiny) := by
      nlinarith [mul_le_mul_of_nonneg_left hx h₀, mul_le_mul_of_nonneg_left h.upper hβ₀]
    refine (mean_le hα h₀ h₁ (hlo₀.trans hlo) hy).trans ?_
    calc (1 + unit) ^ 3 * (α * x + (1 - α) * y + tiny)
        ≤ (1 + unit) ^ 3 * ((1 + unit) ^ (3 * n) * (hi + n * tiny) +
            (1 + unit) ^ (3 * n) * tiny) := by
          gcongr
          exact le_mul_of_one_le_left ht.le hpow
      _ = (1 + unit) ^ (3 * (n + 1)) * (hi + (n + 1 : ℕ) * tiny) := by
          push_cast
          ring

/-- An exponential average in doubles. -/
theorem Within.weightedMean {a x y : Binary64} {lo hi : ℚ} {n : ℕ} (h : Within lo hi n y.val)
    (ha : a.isFinite = true) (h₀ : Binary64.zero.lt a = true) (h₁ : a.le Binary64.one = true)
    (hx : x.isFinite = true) (hlo₀ : 0 ≤ lo) (hlo : lo ≤ x.val) (hhi : x.val ≤ hi)
    (hy : y.isFinite = true) (hy₀ : Binary64.zero.le y = true) :
    Within lo hi (n + 1) (a * x + (Binary64.one - a) * y).val := by
  obtain ⟨α, hα, hα', rfl⟩ := Binary64.exists_fin ha
  obtain ⟨p, hp, hp', rfl⟩ := Binary64.exists_fin hx
  obtain ⟨q, hq, hq', rfl⟩ := Binary64.exists_fin hy
  have hα₀ : 0 < α := not_le.mp (of_decide_eq_false ((Binary64.lt_iff rfl rfl).mp h₀))
  have hα₁ : α ≤ 1 := of_decide_eq_true h₁
  have hq₀ : 0 ≤ q := of_decide_eq_true hy₀
  have hp₀ : 0 ≤ p := hlo₀.trans hlo
  rw [Binary64.weightedMean_fin hα₀ hα₁ hp₀]
  exact h.mean hα hα₀.le hα₁ hlo₀ hlo hhi hq₀

end Numeric
