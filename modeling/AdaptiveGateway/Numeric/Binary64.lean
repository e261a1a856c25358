/-
IEEE 754 binary64 on exact rationals.

A finite number is a point of the grid below `2 ^ 1024` in absolute value.  Every
operation computes the exact rational and rounds it, or goes to infinity past the
largest number.  The two zeros are one value here: the operations below tell them
apart nowhere.
-/
import AdaptiveGateway.Numeric.Rounding

namespace Numeric

inductive Binary64 where
  | nan
  | inf (negative : Bool)
  | fin (q : ℚ) (representable : Representable q) (bounded : |q| < limit)
deriving DecidableEq

namespace Binary64

def ofRat (q : ℚ) : Binary64 :=
  if h : |nearest q| < limit then fin (nearest q) (representable_nearest q) h
  else inf (decide (q < 0))

/-- `math.isfinite`. -/
def isFinite : Binary64 → Bool
  | fin .. => true
  | _ => false

def neg : Binary64 → Binary64
  | nan => nan
  | inf n => inf !n
  | fin q h h' => fin (-q) h.neg (by rwa [abs_neg])

def add : Binary64 → Binary64 → Binary64
  | nan, _ => nan
  | _, nan => nan
  | fin p .., fin q .. => ofRat (p + q)
  | fin .., inf n => inf n
  | inf n, fin .. => inf n
  | inf n, inf m => if n = m then inf n else nan

def mul : Binary64 → Binary64 → Binary64
  | nan, _ => nan
  | _, nan => nan
  | fin p .., fin q .. => ofRat (p * q)
  | fin p .., inf n => if p = 0 then nan else inf (n ^^ decide (p < 0))
  | inf n, fin q .. => if q = 0 then nan else inf (n ^^ decide (q < 0))
  | inf n, inf m => inf (n ^^ m)

def sub (a b : Binary64) : Binary64 := a.add b.neg

instance : Add Binary64 := ⟨add⟩

instance : Mul Binary64 := ⟨mul⟩

instance : Sub Binary64 := ⟨sub⟩

/-- `a <= b`, which is false as soon as one of them is not a number. -/
def le : Binary64 → Binary64 → Bool
  | nan, _ => false
  | _, nan => false
  | fin p .., fin q .. => decide (p ≤ q)
  | fin .., inf n => !n
  | inf n, fin .. => n
  | inf n, inf m => n || !m

/-- `a < b`. -/
def lt (a b : Binary64) : Bool := a.le b && !b.le a

theorem one_lt_limit : (1 : ℚ) < limit := by
  rw [limit]
  exact one_lt_zpow₀ (by norm_num) (by norm_num)

def zero : Binary64 := fin 0 representable_zero (by rw [abs_zero]; linarith [one_lt_limit])

def one : Binary64 := fin 1 representable_one (by rw [abs_one]; exact one_lt_limit)

/-! ## Order -/

theorem ofRat_of_lt {q : ℚ} (h : |nearest q| < limit) :
    ofRat q = fin (nearest q) (representable_nearest q) h := dif_pos h

theorem le_of_le_of_le {a b c : Binary64} (h : a.le b = true) (h' : b.le c = true) :
    a.le c = true := by
  cases b with
  | nan => cases a <;> cases h
  | inf n =>
    cases a <;> cases c <;> simp_all [le]
    grind
  | fin q =>
    cases a <;> cases c <;> simp_all [le]
    exact le_trans h h'

theorem le_refl_of_isFinite {a : Binary64} (h : a.isFinite = true) : a.le a = true := by
  cases a with
  | fin q => exact decide_eq_true le_rfl
  | _ => cases h

theorem lt_of_le_lt {a b c : Binary64} (h : a.le b = true) (h' : b.lt c = true) :
    a.lt c = true := by
  rw [lt, Bool.and_eq_true, Bool.not_eq_true'] at h' ⊢
  refine ⟨le_of_le_of_le h h'.1, ?_⟩
  by_contra hca
  rw [Bool.not_eq_false] at hca
  rw [le_of_le_of_le hca h] at h'
  cases h'.2

theorem not_lt_of_le {a b : Binary64} (h : b.le a = true) : a.lt b = false := by
  rw [lt, h, Bool.not_true, Bool.and_false]

theorem neg_inf_le_ofRat (q : ℚ) : (inf true).le (ofRat q) = true := by
  rw [ofRat]
  split <;> rfl

theorem ofRat_mono {p q : ℚ} (h : p ≤ q) : (ofRat p).le (ofRat q) = true := by
  have hn := nearest_mono h
  by_cases hp : |nearest p| < limit
  · rw [ofRat_of_lt hp]
    by_cases hq : |nearest q| < limit
    · rw [ofRat_of_lt hq]
      exact decide_eq_true hn
    · have hq₀ : ¬q < 0 := by
        intro hq₀
        have h₀ : nearest q ≤ 0 := nearest_zero ▸ nearest_mono hq₀.le
        rw [abs_of_nonpos h₀] at hq
        linarith [(abs_lt.mp hp).1]
      rw [ofRat, dif_neg hq, decide_eq_false hq₀]
      rfl
  · by_cases hp₀ : p < 0
    · rw [ofRat, dif_neg hp, decide_eq_true hp₀]
      exact neg_inf_le_ofRat q
    · have hq : ¬|nearest q| < limit := by
        have h₀ := nearest_nonneg (not_lt.mp hp₀)
        rw [abs_of_nonneg h₀] at hp
        rw [abs_of_nonneg (le_trans h₀ hn)]
        linarith
      rw [ofRat, ofRat, dif_neg hp, dif_neg hq, decide_eq_false (show ¬q < 0 by linarith)]
      exact Bool.or_true _

/-! ## Finite arguments -/

/-- A number is what it is rounded to. -/
theorem ofRat_eq {q : ℚ} (h : Representable q) (h' : |q| < limit) : ofRat q = fin q h h' := by
  have hq := nearest_eq_self h
  rw [ofRat_of_lt (by rwa [hq])]
  congr 1

theorem fin_congr {p q : ℚ} {hp : Representable p} {hp' : |p| < limit} {hq : Representable q}
    {hq' : |q| < limit} (h : p = q) : fin p hp hp' = fin q hq hq' := by
  subst h
  rfl

/-- A part of a nonnegative number does not overflow. -/
theorem abs_nearest_mul_lt {a x : ℚ} (h₀ : 0 ≤ a) (h₁ : a ≤ 1) (hx : Representable x) (hx₀ : 0 ≤ x)
    (hx' : x < limit) : |nearest (a * x)| < limit := by
  rw [abs_of_nonneg (nearest_nonneg (mul_nonneg h₀ hx₀))]
  refine lt_of_le_of_lt ?_ hx'
  exact (nearest_mono (mul_le_of_le_one_left hx₀ h₁)).trans_eq (nearest_eq_self hx)

/-- The operations of an exponential average, on finite arguments. -/
theorem weightedMean_fin {a x y : ℚ} {ha : Representable a} {ha' : |a| < limit}
    {hx : Representable x} {hx' : |x| < limit} {hy : Representable y} {hy' : |y| < limit}
    (h₀ : 0 < a) (h₁ : a ≤ 1) (hx₀ : 0 ≤ x) :
    fin a ha ha' * fin x hx hx' + (one - fin a ha ha') * fin y hy hy' =
      fin (nearest (nearest (a * x) + nearest (nearest (1 - a) * y))) (representable_nearest _)
        (abs_weightedMean_lt ha h₀ h₁ hx hx₀ (abs_lt.mp hx').2 hy hy') := by
  have hβ₀ : 0 ≤ nearest (1 - a) := nearest_nonneg (by linarith)
  have hβ₁ : nearest (1 - a) ≤ 1 := nearest_le_one (by linarith)
  have hax : |nearest (a * x)| < limit := abs_nearest_mul_lt h₀.le h₁ hx hx₀ (abs_lt.mp hx').2
  have hβ : |nearest (1 - a)| < limit := by
    rw [abs_of_nonneg hβ₀]
    exact lt_of_le_of_lt hβ₁ one_lt_limit
  have hβy : |nearest (nearest (1 - a) * y)| < limit := by
    have hle : |nearest (1 - a) * y| ≤ |y| := by
      rw [abs_mul, abs_of_nonneg hβ₀]
      exact mul_le_of_le_one_left (abs_nonneg y) hβ₁
    have hyabs : Representable |y| := by
      rcases abs_choice y with h | h
      · rwa [h]
      · rw [h]
        exact hy.neg
    have hle' := abs_le.mp hle
    refine lt_of_le_of_lt (abs_le.mpr ⟨?_, ?_⟩) hy'
    · exact (nearest_eq_self hyabs.neg).symm.trans_le (nearest_mono hle'.1)
    · exact (nearest_mono hle'.2).trans_eq (nearest_eq_self hyabs)
  have hsub : one - fin a ha ha' = fin (nearest (1 - a)) (representable_nearest _) hβ := by
    show ofRat (1 + -a) = _
    rw [← sub_eq_add_neg, ofRat_of_lt hβ]
  have hmul : fin a ha ha' * fin x hx hx' = fin (nearest (a * x)) (representable_nearest _) hax :=
    ofRat_of_lt hax
  have hmul' : fin (nearest (1 - a)) (representable_nearest _) hβ * fin y hy hy' =
      fin (nearest (nearest (1 - a) * y)) (representable_nearest _) hβy := ofRat_of_lt hβy
  rw [hsub, hmul, hmul']
  exact ofRat_of_lt (abs_weightedMean_lt ha h₀ h₁ hx hx₀ (abs_lt.mp hx').2 hy hy')

/-- Adding a finite number to one that is not finite changes nothing. -/
theorem fin_add_of_not_finite {p : ℚ} {hp : Representable p} {hp' : |p| < limit} {b : Binary64}
    (hb : b.isFinite = false) : fin p hp hp' + b = b := by
  cases b with
  | nan => rfl
  | inf n => rfl
  | fin q => cases hb

theorem mul_not_finite {a b : Binary64} (hb : b.isFinite = false) : (a * b).isFinite = false := by
  cases b with
  | fin q => cases hb
  | nan =>
    cases a <;> rfl
  | inf n =>
    cases a with
    | nan => rfl
    | inf m => rfl
    | fin p hp hp' =>
      show (if p = 0 then nan else inf (n ^^ decide (p < 0))).isFinite = false
      split <;> rfl

/-! ## Finite arguments, without their representation -/

/-- The number that a finite number is. -/
def val : Binary64 → ℚ
  | fin q .. => q
  | _ => 0

section Finite

variable {a x x' y y' g d h : Binary64}

theorem exists_fin (h : x.isFinite = true) : ∃ q hq hq', x = fin q hq hq' := by
  cases x with
  | fin q hq hq' => exact ⟨q, hq, hq', rfl⟩
  | _ => cases h

theorem le_iff_val (hx : x.isFinite = true) (hy : y.isFinite = true) :
    x.le y = true ↔ x.val ≤ y.val := by
  obtain ⟨p, hp, hp', rfl⟩ := exists_fin hx
  obtain ⟨q, hq, hq', rfl⟩ := exists_fin hy
  exact decide_eq_true_iff

/-- Rounding moves no number over a number of the grid. -/
theorem val_lt_of_not_ofRat_le {q : ℚ} (hx : x.isFinite = true) (h : (ofRat q).le x = false) :
    x.val < q := by
  obtain ⟨p, hp, hp', rfl⟩ := exists_fin hx
  by_contra hle
  have hmono := ofRat_mono (show q ≤ p from not_lt.mp hle)
  rw [ofRat_eq hp hp', h] at hmono
  cases hmono

theorem val_lt_sub (hx : x.isFinite = true) (hg : g.isFinite = true) (hh : h.isFinite = true)
    (hlt : (g - h).le x = false) : x.val < g.val - h.val := by
  obtain ⟨p, hp, hp', rfl⟩ := exists_fin hg
  obtain ⟨q, hq, hq', rfl⟩ := exists_fin hh
  have hval := val_lt_of_not_ofRat_le hx (q := p + -q) hlt
  rwa [← sub_eq_add_neg] at hval

theorem not_le_of_lt (h : x.lt y = true) : y.le x = false := by
  rw [lt, Bool.and_eq_true, Bool.not_eq_true'] at h
  exact h.2

theorem sub_le (hg : g.isFinite = true) (hh : h.isFinite = true) (h₀ : zero.le h = true) :
    (g - h).le g = true := by
  obtain ⟨p, hp, hp', rfl⟩ := exists_fin hg
  obtain ⟨q, hq, hq', rfl⟩ := exists_fin hh
  have h₀ : 0 ≤ q := of_decide_eq_true h₀
  have hle := ofRat_mono (show p + -q ≤ p by linarith)
  rw [ofRat_eq hp hp'] at hle
  exact hle

theorem sub_zero (hg : g.isFinite = true) : g - zero = g := by
  obtain ⟨p, hp, hp', rfl⟩ := exists_fin hg
  show ofRat (p + -0) = _
  rw [neg_zero, add_zero]
  exact ofRat_eq hp hp'

/-- With all the weight on the new value, the average is the new value. -/
theorem weightedMean_one (hx : x.isFinite = true) (hy : y.isFinite = true) :
    one * x + (one - one) * y = x := by
  obtain ⟨p, hp, hp', rfl⟩ := exists_fin hx
  obtain ⟨q, hq, hq', rfl⟩ := exists_fin hy
  have hsub : one - one = zero := by
    show ofRat (1 + -1) = zero
    rw [add_neg_cancel]
    exact ofRat_eq representable_zero _
  have hone : one * fin p hp hp' = fin p hp hp' := by
    show ofRat (1 * p) = _
    rw [one_mul]
    exact ofRat_eq hp hp'
  have hzero : zero * fin q hq hq' = zero := by
    show ofRat (0 * q) = zero
    rw [zero_mul]
    exact ofRat_eq representable_zero _
  rw [hsub, hone, hzero]
  show ofRat (p + 0) = _
  rw [add_zero]
  exact ofRat_eq hp hp'

theorem sub_mono (hg : g.isFinite = true) (hd : d.isFinite = true) (hh : h.isFinite = true)
    (hgd : g.le d = true) : (g - h).le (d - h) = true := by
  obtain ⟨p, hp, hp', rfl⟩ := exists_fin hg
  obtain ⟨q, hq, hq', rfl⟩ := exists_fin hd
  obtain ⟨r, hr, hr', rfl⟩ := exists_fin hh
  have hgd : p ≤ q := of_decide_eq_true hgd
  exact ofRat_mono (show p + -r ≤ q + -r by linarith)

theorem not_lt_zero (hx : x.isFinite = true) : x.lt zero = false ↔ zero.le x = true := by
  obtain ⟨q, hq, hq', rfl⟩ := exists_fin hx
  show (decide (q ≤ 0) && !decide (0 ≤ q)) = false ↔ decide (0 ≤ q) = true
  rcases le_total 0 q with h | h <;> simp [h]

theorem lt_iff (hx : x.isFinite = true) (hy : y.isFinite = true) :
    x.lt y = true ↔ y.le x = false := by
  obtain ⟨p, hp, hp', rfl⟩ := exists_fin hx
  obtain ⟨q, hq, hq', rfl⟩ := exists_fin hy
  show (decide (p ≤ q) && !decide (q ≤ p)) = true ↔ decide (q ≤ p) = false
  rcases le_total p q with h | h <;> simp [h]

/-- An exponential average of finite numbers is finite and follows them. -/
theorem weightedMean_mono (ha : a.isFinite = true) (h₀ : zero.lt a = true) (h₁ : a.le one = true)
    (hx : x.isFinite = true) (hx₀ : zero.le x = true) (hx' : x'.isFinite = true)
    (hxx : x.le x' = true) (hy : y.isFinite = true) (hy' : y'.isFinite = true)
    (hyy : y.le y' = true) :
    (a * x + (one - a) * y).isFinite = true ∧ (a * x' + (one - a) * y').isFinite = true ∧
      (a * x + (one - a) * y).le (a * x' + (one - a) * y') = true := by
  obtain ⟨α, hα, hα', rfl⟩ := exists_fin ha
  obtain ⟨p, hp, hp', rfl⟩ := exists_fin hx
  obtain ⟨p', hp₁, hp₁', rfl⟩ := exists_fin hx'
  obtain ⟨q, hq, hq', rfl⟩ := exists_fin hy
  obtain ⟨q', hq₁, hq₁', rfl⟩ := exists_fin hy'
  have hα₀ : 0 < α := not_le.mp (of_decide_eq_false ((lt_iff rfl rfl).mp h₀))
  have hα₁ : α ≤ 1 := of_decide_eq_true h₁
  have hp₀ : 0 ≤ p := of_decide_eq_true hx₀
  have hpp : p ≤ p' := of_decide_eq_true hxx
  have hqq : q ≤ q' := of_decide_eq_true hyy
  rw [weightedMean_fin hα₀ hα₁ hp₀, weightedMean_fin hα₀ hα₁ (hp₀.trans hpp)]
  refine ⟨rfl, rfl, decide_eq_true (nearest_mono (add_le_add ?_ ?_))⟩
  · exact nearest_mono (mul_le_mul_of_nonneg_left hpp hα₀.le)
  · exact nearest_mono (mul_le_mul_of_nonneg_left hqq (nearest_nonneg (by linarith)))

/-- An exponential average of nonnegative numbers is one. -/
theorem weightedMean_nonneg (ha : a.isFinite = true) (h₀ : zero.lt a = true)
    (h₁ : a.le one = true) (hx : x.isFinite = true) (hx₀ : zero.le x = true)
    (hy : y.isFinite = true) (hy₀ : zero.le y = true) :
    (a * x + (one - a) * y).isFinite = true ∧ zero.le (a * x + (one - a) * y) = true := by
  obtain ⟨α, hα, hα', rfl⟩ := exists_fin ha
  obtain ⟨p, hp, hp', rfl⟩ := exists_fin hx
  obtain ⟨q, hq, hq', rfl⟩ := exists_fin hy
  have hα₀ : 0 < α := not_le.mp (of_decide_eq_false ((lt_iff rfl rfl).mp h₀))
  have hα₁ : α ≤ 1 := of_decide_eq_true h₁
  have hp₀ : 0 ≤ p := of_decide_eq_true hx₀
  have hq₀ : 0 ≤ q := of_decide_eq_true hy₀
  have hβ : 0 ≤ nearest (1 - α) := nearest_nonneg (by linarith)
  rw [weightedMean_fin hα₀ hα₁ hp₀]
  refine ⟨rfl, decide_eq_true (nearest_nonneg (add_nonneg ?_ ?_))⟩
  · exact nearest_nonneg (mul_nonneg hα₀.le hp₀)
  · exact nearest_nonneg (mul_nonneg hβ hq₀)

/-- An average that has left the finite numbers no longer follows the samples. -/
theorem weightedMean_not_finite (ha : a.isFinite = true) (h₀ : zero.lt a = true)
    (h₁ : a.le one = true) (hx : x.isFinite = true) (hx₀ : zero.le x = true)
    (hy : y.isFinite = false) : a * x + (one - a) * y = (one - a) * y := by
  obtain ⟨α, hα, hα', rfl⟩ := exists_fin ha
  obtain ⟨p, hp, hp', rfl⟩ := exists_fin hx
  have hα₀ : 0 < α := not_le.mp (of_decide_eq_false ((lt_iff rfl rfl).mp h₀))
  have hα₁ : α ≤ 1 := of_decide_eq_true h₁
  have hp₀ : 0 ≤ p := of_decide_eq_true hx₀
  have hmul : fin α hα hα' * fin p hp hp' = ofRat (α * p) := rfl
  rw [hmul, ofRat_of_lt (abs_nearest_mul_lt hα₀.le hα₁ hp hp₀ (abs_lt.mp hp').2)]
  exact fin_add_of_not_finite (mul_not_finite hy)

end Finite

end Binary64

end Numeric
