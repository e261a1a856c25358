/-
Rounding to 53 significant bits.

The grid of IEEE 754 binary64 consists of the rationals `m * 2 ^ e` with
`|m| < 2 ^ 53` and `-1074 ≤ e`.  `nearest` rounds to it, ties going to the even
significand, and leaves the range to whoever uses it.  It is characterised by
`nearest_le`: no representable number is closer.  That it keeps the order follows
from this alone.
-/
import Mathlib.Data.Int.Log
import Mathlib.Data.Rat.Floor
import Mathlib.Tactic.Linarith
import Mathlib.Tactic.Positivity
import Mathlib.Tactic.Ring
import Mathlib.Tactic.NormNum

namespace Numeric

/-! ## Rounding to an integer -/

/-- The nearest integer, and the even one of two that are equally near. -/
def roundHalfEven (q : ℚ) : ℤ :=
  if q - ⌊q⌋ < 1 / 2 ∨ q - ⌊q⌋ = 1 / 2 ∧ ⌊q⌋ % 2 = 0 then ⌊q⌋ else ⌊q⌋ + 1

theorem floor_le_roundHalfEven (q : ℚ) : ⌊q⌋ ≤ roundHalfEven q := by
  unfold roundHalfEven
  split <;> omega

theorem roundHalfEven_le (q : ℚ) : roundHalfEven q ≤ ⌊q⌋ + 1 := by
  unfold roundHalfEven
  split <;> omega

theorem abs_roundHalfEven_sub_le (q : ℚ) : |(roundHalfEven q : ℚ) - q| ≤ 1 / 2 := by
  have hlo := Int.floor_le q
  have hhi := Int.lt_floor_add_one q
  unfold roundHalfEven
  split
  next h =>
    rw [abs_le]
    rcases h with h | ⟨h, -⟩ <;> constructor <;> linarith
  next h =>
    push Not at h
    rw [abs_le]
    push_cast
    constructor <;> linarith [h.1]

/-- No integer is closer. -/
theorem abs_roundHalfEven_sub_le_sub (q : ℚ) (n : ℤ) :
    |(roundHalfEven q : ℚ) - q| ≤ |(n : ℚ) - q| := by
  have hlo := Int.floor_le q
  have hhi := Int.lt_floor_add_one q
  have hhalf := abs_roundHalfEven_sub_le q
  by_cases hn : n = roundHalfEven q
  · rw [hn]
  · -- Another integer is at least one away from this one.
    have hone : (1 : ℚ) ≤ |(n : ℚ) - roundHalfEven q| := by
      have hz : (1 : ℤ) ≤ |n - roundHalfEven q| := Int.one_le_abs (sub_ne_zero.mpr hn)
      exact_mod_cast hz
    have htri : |(n : ℚ) - roundHalfEven q| ≤ |(n : ℚ) - q| + |(roundHalfEven q : ℚ) - q| := by
      have h := abs_sub_le (n : ℚ) q (roundHalfEven q)
      rw [abs_sub_comm q] at h
      exact h
    linarith

/-! ## The grid -/

/-- A number with at most 53 significant bits, none below `2 ^ -1074`. -/
def Representable (r : ℚ) : Prop :=
  ∃ m e : ℤ, |m| < 2 ^ 53 ∧ -1074 ≤ e ∧ r = m * 2 ^ e

/-- The exponent of the last significant bit. -/
def exponent (q : ℚ) : ℤ := max (Int.log 2 |q| - 52) (-1074)

def ulp (q : ℚ) : ℚ := 2 ^ exponent q

/-- The nearest number with 53 significant bits, whatever its size. -/
def nearest (q : ℚ) : ℚ := roundHalfEven (q / ulp q) * ulp q

theorem two_zpow_pos (e : ℤ) : (0 : ℚ) < 2 ^ e := zpow_pos (by norm_num) e

theorem two_zpow_add (n : ℕ) (e : ℤ) : (2 : ℚ) ^ (n + e) = 2 ^ n * 2 ^ e := by
  rw [zpow_add₀ (by norm_num), zpow_natCast]

theorem ulp_pos (q : ℚ) : 0 < ulp q := two_zpow_pos _

theorem neg_1074_le_exponent (q : ℚ) : -1074 ≤ exponent q := le_max_right _ _

/-- Every number is below `2 ^ 53` units in its last place. -/
theorem abs_lt_ulp (q : ℚ) : |q| < 2 ^ 53 * ulp q := by
  have hlog : |q| < (2 : ℚ) ^ (Int.log 2 |q| + 1) := by
    exact_mod_cast Int.lt_zpow_succ_log_self (by norm_num : 1 < 2) |q|
  have hle : (2 : ℚ) ^ (Int.log 2 |q| + 1) ≤ 2 ^ (53 + exponent q) := by
    apply zpow_le_zpow_right₀ (by norm_num)
    have := le_max_left (Int.log 2 |q| - 52) (-1074)
    unfold exponent
    omega
  exact lt_of_lt_of_le hlog (hle.trans_eq (two_zpow_add 53 _))

theorem representable_nearest (q : ℚ) : Representable (nearest q) := by
  have hu := ulp_pos q
  have hlt := abs_lt.mp (abs_lt_ulp q)
  have hhi : q / ulp q < (2 ^ 53 : ℤ) := by
    rw [div_lt_iff₀ hu]
    push_cast
    linarith
  have hlo : ((-2 ^ 53 : ℤ) : ℚ) ≤ q / ulp q := by
    rw [le_div_iff₀ hu]
    push_cast
    linarith
  have hfloor : ⌊q / ulp q⌋ < 2 ^ 53 := Int.floor_lt.mpr hhi
  have hfloor' : -2 ^ 53 ≤ ⌊q / ulp q⌋ := Int.le_floor.mpr hlo
  have hle := roundHalfEven_le (q / ulp q)
  have hge := floor_le_roundHalfEven (q / ulp q)
  have he := neg_1074_le_exponent q
  by_cases hm : |roundHalfEven (q / ulp q)| < 2 ^ 53
  · exact ⟨_, exponent q, hm, he, rfl⟩
  · -- The significand has overflowed by one, and is a power of two.
    have hcase : roundHalfEven (q / ulp q) = 2 ^ 53 ∨ roundHalfEven (q / ulp q) = -2 ^ 53 := by
      rw [abs_lt] at hm
      omega
    have hpow : (2 : ℚ) ^ (exponent q + 1) = 2 * ulp q := by
      rw [zpow_add_one₀ (by norm_num), mul_comm, ulp]
    rcases hcase with hc | hc
    · refine ⟨2 ^ 52, exponent q + 1, by norm_num, by omega, ?_⟩
      rw [nearest, hc, hpow]
      push_cast
      ring
    · refine ⟨-2 ^ 52, exponent q + 1, by norm_num, by omega, ?_⟩
      rw [nearest, hc, hpow]
      push_cast
      ring

/-- A representable number that is not small is a multiple of a coarse unit. -/
theorem Representable.multiple {r : ℚ} (hr : Representable r) {e : ℤ}
    (h : (2 : ℚ) ^ (52 + e) ≤ |r|) : ∃ n : ℤ, r = n * 2 ^ e := by
  obtain ⟨m, e', hm, -, rfl⟩ := hr
  by_cases hee : e ≤ e'
  · refine ⟨m * 2 ^ (e' - e).toNat, ?_⟩
    have hsplit : (2 : ℚ) ^ e' = 2 ^ (e' - e).toNat * 2 ^ e := by
      rw [← zpow_natCast, ← zpow_add₀ (by norm_num)]
      congr 1
      omega
    rw [hsplit]
    push_cast
    ring
  · exfalso
    have hm' : |(m : ℚ)| < 2 ^ 53 := by exact_mod_cast hm
    have hlt : |(m : ℚ) * 2 ^ e'| < 2 ^ (53 + e') := by
      rw [abs_mul, abs_of_pos (two_zpow_pos e'), show (53 : ℤ) + e' = ((53 : ℕ) : ℤ) + e' from rfl,
        two_zpow_add]
      exact mul_lt_mul_of_pos_right hm' (two_zpow_pos e')
    have hle : (2 : ℚ) ^ (53 + e') ≤ 2 ^ (52 + e) :=
      zpow_le_zpow_right₀ (by norm_num) (by omega)
    linarith

/-- No representable number is closer. -/
theorem nearest_le {r : ℚ} (hr : Representable r) (q : ℚ) : |nearest q - q| ≤ |r - q| := by
  have hu := ulp_pos q
  -- Among the multiples of the unit this is rounding to an integer.
  have hmultiple : ∀ n : ℤ, |nearest q - q| ≤ |n * ulp q - q| := by
    intro n
    have h := abs_roundHalfEven_sub_le_sub (q / ulp q) n
    have hscale : ∀ x : ℤ, |(x : ℚ) * ulp q - q| = |(x : ℚ) - q / ulp q| * ulp q := by
      intro x
      rw [← abs_of_pos hu, ← abs_mul, abs_of_pos hu, sub_mul, div_mul_cancel₀ q hu.ne']
    rw [nearest, hscale, hscale]
    exact mul_le_mul_of_nonneg_right h hu.le
  by_cases hbig : (2 : ℚ) ^ (52 + exponent q) ≤ |r|
  · obtain ⟨n, rfl⟩ := hr.multiple hbig
    exact hmultiple n
  · by_cases hmin : exponent q = -1074
    · obtain ⟨m, e, -, he, rfl⟩ := hr
      have hsplit : (2 : ℚ) ^ e = 2 ^ (e + 1074).toNat * ulp q := by
        rw [ulp, hmin, ← zpow_natCast, ← zpow_add₀ (by norm_num)]
        congr 1
        omega
      have h := hmultiple (m * 2 ^ (e + 1074).toNat)
      rw [hsplit, ← mul_assoc]
      exact_mod_cast h
    · by_cases hq : q = 0
      · subst hq
        simp [nearest, roundHalfEven]
      -- The number is smaller than `2 ^ 52` units, which lie between it and `q`.
      have hexp : exponent q = Int.log 2 |q| - 52 := by
        unfold exponent at hmin ⊢
        omega
      have hle : 2 ^ 52 * ulp q ≤ |q| := by
        have h := Int.zpow_log_le_self (b := 2) (by norm_num) (abs_pos.mpr hq)
        rw [ulp, ← two_zpow_add, hexp, show ((52 : ℕ) : ℤ) + (Int.log 2 |q| - 52) = Int.log 2 |q| by
          omega]
        exact_mod_cast h
      have hlt : |r| < 2 ^ 52 * ulp q := by
        rw [ulp, ← two_zpow_add]
        exact not_le.mp hbig
      have htri := abs_sub_abs_le_abs_sub q r
      rw [abs_sub_comm q r] at htri
      rcases le_or_gt 0 q with hpos | hneg
      · have h := hmultiple (2 ^ 52)
        simp only [Int.cast_pow, Int.cast_ofNat] at h
        rw [abs_of_nonneg hpos] at hle htri
        rw [abs_of_nonpos (by linarith : 2 ^ 52 * ulp q - q ≤ 0)] at h
        linarith
      · have h := hmultiple (-2 ^ 52)
        simp only [Int.cast_neg, Int.cast_pow, Int.cast_ofNat] at h
        rw [abs_of_neg hneg] at hle htri
        rw [abs_of_nonneg (by linarith : 0 ≤ -2 ^ 52 * ulp q - q)] at h
        linarith

theorem nearest_eq_self {q : ℚ} (hq : Representable q) : nearest q = q := by
  have h := nearest_le hq q
  rw [sub_self, abs_zero] at h
  exact sub_eq_zero.mp (abs_eq_zero.mp (le_antisymm h (abs_nonneg _)))

theorem nearest_mono {p q : ℚ} (h : p ≤ q) : nearest p ≤ nearest q := by
  rcases h.eq_or_lt with rfl | h
  · exact le_rfl
  · by_contra hlt
    rw [not_le] at hlt
    -- Each point would lie on the far side of the middle between the two results.
    have hp := nearest_le (representable_nearest q) p
    have hq := nearest_le (representable_nearest p) q
    rw [← sq_le_sq] at hp hq
    nlinarith

theorem representable_zero : Representable 0 := ⟨0, 0, by norm_num, by norm_num, by norm_num⟩

theorem nearest_zero : nearest 0 = 0 := nearest_eq_self representable_zero

theorem nearest_nonneg {q : ℚ} (h : 0 ≤ q) : 0 ≤ nearest q := nearest_zero ▸ nearest_mono h

theorem representable_one : Representable 1 := ⟨1, 0, by norm_num, by norm_num, by norm_num⟩

theorem representable_half : Representable (1 / 2) := ⟨1, -1, by norm_num, by norm_num, by norm_num⟩

theorem nearest_le_one {q : ℚ} (h : q ≤ 1) : nearest q ≤ 1 :=
  (nearest_mono h).trans_eq (nearest_eq_self representable_one)

theorem Representable.neg {q : ℚ} (h : Representable q) : Representable (-q) := by
  obtain ⟨m, e, hm, he, rfl⟩ := h
  refine ⟨-m, e, by rwa [abs_neg], he, ?_⟩
  push_cast
  ring

/-! ## Weighted means do not overflow

Rounding errors could carry `α * x + (1 - α) * y` past the largest number even
though both arguments are below it.  They do not: the product of a weight with the
largest number is rounded down by enough to make up for the other errors. -/

/-- The numbers end below this. -/
def limit : ℚ := 2 ^ (1024 : ℤ)

/-- The distance between the largest numbers. -/
def gap : ℚ := 2 ^ (971 : ℤ)

theorem gap_pos : 0 < gap := two_zpow_pos _

theorem limit_eq : limit = 2 ^ 53 * gap := two_zpow_add 53 971

def largest : ℚ := limit - gap

theorem largest_eq : largest = (2 ^ 53 - 1) * gap := by
  rw [largest, limit_eq]
  ring

theorem representable_largest : Representable largest :=
  ⟨2 ^ 53 - 1, 971, by norm_num, by norm_num, by rw [largest_eq, gap]; norm_num⟩

theorem Representable.le_largest {r : ℚ} (hr : Representable r) (h : r < limit) : r ≤ largest := by
  have hgap := gap_pos
  rw [limit_eq] at h
  rw [largest_eq]
  by_cases hbig : 2 ^ 52 * gap ≤ r
  · have hge : (2 : ℚ) ^ (52 + 971 : ℤ) ≤ |r| := by
      rw [abs_of_nonneg (by nlinarith), show (52 : ℤ) = ((52 : ℕ) : ℤ) from rfl, two_zpow_add]
      exact hbig
    obtain ⟨n, rfl⟩ := hr.multiple hge
    have hn : (n : ℚ) < 2 ^ 53 := lt_of_mul_lt_mul_right h hgap.le
    have hn' : n ≤ 2 ^ 53 - 1 := by
      have : n < 2 ^ 53 := by exact_mod_cast hn
      omega
    have hn'' : (n : ℚ) ≤ 2 ^ 53 - 1 := by exact_mod_cast hn'
    exact mul_le_mul_of_nonneg_right hn'' hgap.le
  · rw [not_le] at hbig
    nlinarith

theorem Representable.two_zpow_le {c : ℚ} (hc : Representable c) (hpos : 0 < c) :
    (2 : ℚ) ^ (-1074 : ℤ) ≤ c := by
  obtain ⟨m, e, -, he, rfl⟩ := hc
  have hm : (1 : ℚ) ≤ m := by
    have : (0 : ℚ) < m := pos_of_mul_pos_left hpos (two_zpow_pos e).le
    exact_mod_cast this
  calc (2 : ℚ) ^ (-1074 : ℤ) ≤ 2 ^ e := zpow_le_zpow_right₀ (by norm_num) he
    _ ≤ m * 2 ^ e := le_mul_of_one_le_left (two_zpow_pos e).le hm

/-- A positive number with its leading bit in the 53rd place. -/
theorem Representable.normalize {c : ℚ} (hc : Representable c) (hpos : 0 < c) :
    ∃ n k : ℤ, 2 ^ 52 ≤ n ∧ n < 2 ^ 53 ∧ -1126 ≤ k ∧ c = n * 2 ^ k := by
  have hlo := Int.zpow_log_le_self (b := 2) (by norm_num) hpos
  have hhi := Int.lt_zpow_succ_log_self (b := 2) (by norm_num) c
  have hlog : -1074 ≤ Int.log 2 c := by
    rw [← Int.zpow_le_iff_le_log (by norm_num) hpos]
    exact_mod_cast hc.two_zpow_le hpos
  obtain ⟨n, hn⟩ := hc.multiple (e := Int.log 2 c - 52) (by
    rw [abs_of_pos hpos, show (52 : ℤ) + (Int.log 2 c - 52) = Int.log 2 c by omega]
    exact_mod_cast hlo)
  have hk := two_zpow_pos (Int.log 2 c - 52)
  refine ⟨n, Int.log 2 c - 52, ?_, ?_, by omega, hn⟩
  · have h : (2 : ℚ) ^ 52 * 2 ^ (Int.log 2 c - 52) ≤ n * 2 ^ (Int.log 2 c - 52) := by
      rw [← hn, ← two_zpow_add, show ((52 : ℕ) : ℤ) + (Int.log 2 c - 52) = Int.log 2 c by omega]
      exact_mod_cast hlo
    exact_mod_cast le_of_mul_le_mul_right h hk
  · have h : (n : ℚ) * 2 ^ (Int.log 2 c - 52) < 2 ^ 53 * 2 ^ (Int.log 2 c - 52) := by
      rw [← hn, ← two_zpow_add, show ((53 : ℕ) : ℤ) + (Int.log 2 c - 52) = Int.log 2 c + 1 by omega]
      exact_mod_cast hhi
    exact_mod_cast lt_of_mul_lt_mul_right h hk.le

/-- A weight times the largest number is rounded to less than the weight times the
limit. -/
theorem nearest_mul_largest_lt {c : ℚ} (hc : Representable c) (hpos : 0 < c) :
    nearest (c * largest) < c * limit := by
  obtain ⟨n, k, hn, hn', hk, rfl⟩ := hc.normalize hpos
  have hw := two_zpow_pos (k + 1024)
  have hlimit : n * 2 ^ k * limit = n * (2 : ℚ) ^ (k + 1024) := by
    rw [limit, mul_assoc, ← zpow_add₀ (by norm_num)]
  have hgap : (2 : ℚ) ^ k * gap * 2 ^ 53 = 2 ^ (k + 1024) := by
    rw [mul_assoc, mul_comm gap, ← limit_eq, limit, ← zpow_add₀ (by norm_num)]
  have hexact : n * 2 ^ k * largest = n * (2 : ℚ) ^ (k + 1024) - n * (2 ^ k * gap) := by
    rw [largest, mul_sub, hlimit]
    ring
  rcases hn.eq_or_lt with heq | hlt
  · -- A power of two: the product is exact.
    have hrep : Representable ((n : ℚ) * 2 ^ k * largest) := by
      refine ⟨2 ^ 53 - 1, k + 1023, by norm_num, by omega, ?_⟩
      have hsplit : (2 : ℚ) ^ (k + 1023) = 2 ^ 52 * 2 ^ k * gap := by
        rw [gap, ← zpow_natCast, ← zpow_add₀ (by norm_num), ← zpow_add₀ (by norm_num)]
        congr 1
        omega
      rw [hsplit, largest_eq, ← heq]
      push_cast
      ring
    rw [nearest_eq_self hrep]
    exact mul_lt_mul_of_pos_left (sub_lt_self _ gap_pos) hpos
  · have hn₁ : (2 : ℚ) ^ 52 < n := by exact_mod_cast hlt
    have hn₂ : (n : ℚ) < 2 ^ 53 := by exact_mod_cast hn'
    set W : ℚ := 2 ^ (k + 1024) with hW
    set d : ℚ := n * (2 ^ k * gap) with hd
    have hd₁ : W / 2 < d := by
      have : (2 : ℚ) ^ k * gap = W / 2 ^ 53 := by
        rw [← hgap]
        ring
      rw [hd, this]
      nlinarith
    have hrepv : Representable (n * W) := ⟨n, k + 1024, by rw [abs_of_pos (by omega)]; exact hn',
      by omega, rfl⟩
    have hrepw : Representable (((n - 1 : ℤ) : ℚ) * W) :=
      ⟨n - 1, k + 1024, by rw [abs_of_pos (by omega)]; omega, by omega, rfl⟩
    rw [hlimit, hexact]
    have hle : nearest (n * W - d) ≤ n * W := by
      rw [← nearest_eq_self hrepv]
      exact nearest_mono (by rw [nearest_eq_self hrepv]; linarith)
    refine lt_of_le_of_ne hle fun heq => ?_
    -- The next number below is closer.
    have hclose := nearest_le hrepw (n * W - d)
    rw [heq] at hclose
    have hd₂ : d < W := by
      have : (2 : ℚ) ^ k * gap = W / 2 ^ 53 := by
        rw [← hgap]
        ring
      rw [hd, this]
      nlinarith
    push_cast at hclose
    rw [abs_of_pos (by linarith), abs_of_neg (by linarith)] at hclose
    linarith

theorem nearest_mul_largest_le {c : ℚ} (hc : Representable c) (hlo : 1 / 2 < c) :
    nearest (c * largest) ≤ c * limit - gap := by
  have hgap := gap_pos
  have hlt := nearest_mul_largest_lt hc (by linarith)
  obtain ⟨n, hn⟩ := hc.multiple (e := -53) (by
    rw [abs_of_pos (by linarith), show (52 : ℤ) + -53 = -1 by norm_num, zpow_neg_one]
    linarith)
  have hunit : c * limit = n * gap := by
    rw [hn, limit_eq, zpow_neg]
    field_simp
  have hn₁ : 2 ^ 52 + 1 ≤ n := by
    have h : (2 : ℚ) ^ 52 < n := by
      have h53 : (2 : ℚ) ^ (-53 : ℤ) = 1 / 2 ^ 53 := by norm_num
      rw [hn, h53] at hlo
      linarith
    exact_mod_cast h
  rw [hunit] at hlt ⊢
  by_cases hbig : 2 ^ 52 * gap ≤ nearest (c * largest)
  · have hge : (2 : ℚ) ^ (52 + 971 : ℤ) ≤ |nearest (c * largest)| := by
      rw [abs_of_nonneg (by nlinarith), show (52 : ℤ) = ((52 : ℕ) : ℤ) from rfl, two_zpow_add]
      exact hbig
    obtain ⟨j, hj⟩ := (representable_nearest _).multiple hge
    change _ = (j : ℚ) * gap at hj
    rw [hj] at hlt ⊢
    have hjn : j < n := by exact_mod_cast lt_of_mul_lt_mul_right hlt hgap.le
    have hjn' : (j : ℚ) ≤ n - 1 := by exact_mod_cast (by omega : j ≤ n - 1)
    nlinarith
  · rw [not_le] at hbig
    have hn₂ : (2 : ℚ) ^ 52 ≤ n - 1 := by exact_mod_cast (by omega : (2 : ℤ) ^ 52 ≤ n - 1)
    nlinarith

/-- Up to half a gap above the largest number, rounding comes back to it. -/
theorem nearest_lt_limit {x : ℚ} (h : x < largest + gap / 2) : nearest x < limit := by
  have hgap := gap_pos
  rcases le_or_gt x largest with hle | hgt
  · have h' := nearest_mono hle
    rw [nearest_eq_self representable_largest] at h'
    exact lt_of_le_of_lt h' (sub_lt_self _ hgap)
  · have hclose := nearest_le representable_largest x
    rw [abs_of_neg (by linarith : largest - x < 0)] at hclose
    have := le_abs_self (nearest x - x)
    have hlimit : limit = largest + gap := (sub_add_cancel limit gap).symm
    linarith

theorem representable_half_largest : Representable (1 / 2 * largest) := by
  refine ⟨2 ^ 53 - 1, 970, by norm_num, by norm_num, ?_⟩
  have hgap : gap = 2 * 2 ^ (970 : ℤ) := by
    rw [gap, show (971 : ℤ) = 970 + 1 by norm_num, zpow_add_one₀ (by norm_num), mul_comm]
  rw [largest_eq, hgap]
  generalize (2 : ℚ) ^ (970 : ℤ) = w
  push_cast
  ring

/-- The complement of a weight is off by at most half a unit in the last place. -/
theorem abs_nearest_one_sub_le {α : ℚ} (h₀ : 0 ≤ α) (h₁ : α ≤ 1) :
    |nearest (1 - α) - (1 - α)| ≤ 1 / 2 ^ 54 := by
  set n : ℤ := roundHalfEven ((1 - α) * 2 ^ 53) with hn
  have hclose := abs_roundHalfEven_sub_le ((1 - α) * 2 ^ 53)
  rw [← hn, abs_le] at hclose
  have hrep : Representable ((n : ℚ) * 2 ^ (-53 : ℤ)) := by
    have hlo : -(1 : ℚ) < n := by nlinarith
    have hhi : (n : ℚ) < 2 ^ 53 + 1 := by nlinarith
    have hlo' : 0 ≤ n := by
      have : -1 < n := by exact_mod_cast hlo
      omega
    have hhi' : n ≤ 2 ^ 53 := by
      have : n < 2 ^ 53 + 1 := by exact_mod_cast hhi
      omega
    rcases hhi'.eq_or_lt with heq | hlt
    · rw [heq]
      exact ⟨1, 0, by norm_num, by norm_num, by norm_num⟩
    · exact ⟨n, -53, by rwa [abs_of_nonneg hlo'], by norm_num, rfl⟩
  have h53 : (2 : ℚ) ^ (-53 : ℤ) = 1 / 2 ^ 53 := by norm_num
  refine (nearest_le hrep (1 - α)).trans ?_
  rw [h53, abs_le]
  constructor <;> linarith

theorem weightedMean_largest_lt {α : ℚ} (hα : Representable α) (h₀ : 0 < α) (h₁ : α ≤ 1) :
    nearest (α * largest) + nearest (nearest (1 - α) * largest) < largest + gap / 2 := by
  have hgap := gap_pos
  have hlimit : limit = largest + gap := (sub_add_cancel limit gap).symm
  have hlargest : largest = (2 ^ 53 - 1) * gap := largest_eq
  have hhalf := nearest_eq_self representable_half_largest
  have hβ := representable_nearest (1 - α)
  have herr := abs_le.mp (abs_nearest_one_sub_le h₀.le h₁)
  rcases lt_trichotomy α (1 / 2) with hlt | heq | hgt
  · -- The complement is above one half, and is where the error is made up for.
    have hβ₁ : nearest (1 - α) ≤ 1 := nearest_le_one (by linarith)
    have hβ₀ : 1 / 2 ≤ nearest (1 - α) := by
      have h := nearest_mono (by linarith : 1 / 2 ≤ 1 - α)
      rwa [nearest_eq_self representable_half] at h
    have hsmall := nearest_mul_largest_lt hα h₀
    rcases hβ₁.eq_or_lt with hone | hβ₁
    · have hα' : α ≤ 1 / 2 ^ 54 := by
        rw [hone] at herr
        linarith
      have hrep : Representable (1 / 2 ^ 54 * largest) := by
        refine ⟨2 ^ 53 - 1, 917, by norm_num, by norm_num, ?_⟩
        have hsplit : gap = 2 ^ 54 * 2 ^ (917 : ℤ) := two_zpow_add 54 917
        rw [hlargest, hsplit]
        generalize (2 : ℚ) ^ (917 : ℤ) = w
        norm_num
        ring
      have hle := nearest_mono (mul_le_mul_of_nonneg_right hα' (by nlinarith : 0 ≤ largest))
      rw [nearest_eq_self hrep] at hle
      rw [hone, one_mul, nearest_eq_self representable_largest]
      nlinarith
    · rcases hβ₀.eq_or_lt with hhalf' | hβ₀
      · rw [← hhalf', hhalf]
        nlinarith
      · have hlarge := nearest_mul_largest_le hβ hβ₀
        nlinarith
  · have hcomp : nearest (1 - α) = 1 / 2 := by
      rw [heq, show (1 : ℚ) - 1 / 2 = 1 / 2 by norm_num]
      exact nearest_eq_self representable_half
    rw [hcomp, heq, hhalf]
    linarith
  · have hlarge := nearest_mul_largest_le hα hgt
    -- Above one half the complement is exact.
    obtain ⟨n, hn⟩ := hα.multiple (e := -53) (by
      rw [abs_of_pos h₀, show (52 : ℤ) + -53 = -1 by norm_num, zpow_neg_one]
      linarith)
    have h53 : (2 : ℚ) ^ (-53 : ℤ) = 1 / 2 ^ 53 := by norm_num
    have hn₀ : (2 : ℚ) ^ 52 < n := by
      rw [hn, h53] at hgt
      linarith
    have hn₁ : (n : ℚ) ≤ 2 ^ 53 := by
      rw [hn, h53] at h₁
      linarith
    have hn₀' : 2 ^ 52 < n := by exact_mod_cast hn₀
    have hn₁' : n ≤ 2 ^ 53 := by exact_mod_cast hn₁
    have hcomp : nearest (1 - α) = 1 - α := by
      refine nearest_eq_self ⟨2 ^ 53 - n, -53, ?_, by norm_num, ?_⟩
      · rw [abs_of_nonneg (by omega)]
        omega
      · rw [hn, h53]
        push_cast
        ring
    rw [hcomp]
    rcases h₁.eq_or_lt with hone | h₁
    · rw [hone, sub_self, zero_mul, nearest_zero, one_mul, nearest_eq_self representable_largest]
      linarith
    · have hsmall := nearest_mul_largest_lt (hcomp ▸ hβ) (by linarith : 0 < 1 - α)
      nlinarith

/-- A weighted mean of a number and a number that is not negative stays in range. -/
theorem abs_weightedMean_lt {α x y : ℚ} (hα : Representable α) (h₀ : 0 < α) (h₁ : α ≤ 1)
    (hx : Representable x) (hx₀ : 0 ≤ x) (hx₁ : x < limit) (hy : Representable y)
    (hy₁ : |y| < limit) :
    |nearest (nearest (α * x) + nearest (nearest (1 - α) * y))| < limit := by
  have hgap := gap_pos
  have hlimit : limit = largest + gap := (sub_add_cancel limit gap).symm
  have hlargest : 0 ≤ largest := hx₀.trans (hx.le_largest hx₁)
  have hβ₀ : 0 ≤ nearest (1 - α) := nearest_nonneg (by linarith)
  have hβ₁ : nearest (1 - α) ≤ 1 := nearest_le_one (by linarith)
  have hxl := hx.le_largest hx₁
  have hyl := hy.le_largest (abs_lt.mp hy₁).2
  have hyl' : -largest ≤ y := by
    have h := hy.neg.le_largest (by linarith [(abs_lt.mp hy₁).1])
    linarith
  rw [abs_lt]
  constructor
  · have hlo : -largest ≤ nearest (α * x) + nearest (nearest (1 - α) * y) := by
      have hxα := nearest_nonneg (mul_nonneg h₀.le hx₀)
      have hyβ := nearest_mono (by nlinarith : -largest ≤ nearest (1 - α) * y)
      rw [nearest_eq_self representable_largest.neg] at hyβ
      linarith
    have h := nearest_mono hlo
    rw [nearest_eq_self representable_largest.neg] at h
    linarith
  · refine nearest_lt_limit (lt_of_le_of_lt ?_ (weightedMean_largest_lt hα h₀ h₁))
    exact add_le_add (nearest_mono (mul_le_mul_of_nonneg_left hxl h₀.le))
      (nearest_mono (mul_le_mul_of_nonneg_left hyl hβ₀))

end Numeric
