/-
Integers as JSON numbers.
-/
import AdaptiveGateway.Codec.Json

namespace Codec

/-- `int.__repr__`. -/
def intText : Int → Text
  | .ofNat n => Nat.toDigits 10 n
  | .negSucc n => '-' :: Nat.toDigits 10 (n + 1)

namespace Json

/-- The literals that `json.loads` turns into an `int`. -/
def isIntegral (lit : Text) : Bool := lit.all fun c => isDigit c || c == '-'

theorem isDigit_toDigits (n : Nat) : ∀ c ∈ Nat.toDigits 10 n, isDigit c = true := by
  intro c hc
  have h := Nat.isDigit_of_mem_toDigits (by decide) (by decide) hc
  simp only [Char.isDigit, Bool.and_eq_true, decide_eq_true_eq, UInt32.le_iff_toNat_le] at h
  rw [isDigit, decide_eq_true_eq]
  exact ⟨h.1, Nat.lt_succ_of_le h.2⟩

/-- No digit string of a positive number begins with a zero.  By strong induction,
since the last digit is split off first. -/
theorem toDigits_head (n : Nat) (hn : 0 < n) : ∀ c t, Nat.toDigits 10 n = c :: t → c ≠ '0' := by
  induction n using Nat.strong_induction_on with
  | _ n ih =>
    intro c t h
    by_cases hlt : n < 10
    · rw [Nat.toDigits_of_lt_base hlt] at h
      rw [← (List.cons.inj h).1]
      interval_cases n <;> decide
    · rw [Nat.toDigits_of_base_le (by decide) (by omega)] at h
      cases hd : Nat.toDigits 10 (n / 10) with
      | nil => exact absurd hd Nat.toDigits_ne_nil
      | cons d u =>
        rw [hd] at h
        rw [← (List.cons.inj h).1]
        exact ih (n / 10) (by omega) (by omega) d u hd

/-- The text does not go on with a digit. -/
def NoDigit (t : Text) : Prop := ∀ c u, t = c :: u → isDigit c = false

theorem noDigit_nil : NoDigit [] := by
  intro c u h
  cases h

theorem noDigit_dot (t : Text) : NoDigit ('.' :: t) := by
  intro c u h
  rw [← (List.cons.inj h).1]
  rfl

section Digits

variable {t : Text} (ht : NoDigit t) (n : Nat)
include ht

theorem NoDigit.takeWhile : (Nat.toDigits 10 n ++ t).takeWhile isDigit = Nat.toDigits 10 n := by
  rw [List.takeWhile_append_of_pos (isDigit_toDigits n)]
  cases t with
  | nil => exact List.append_nil _
  | cons c u =>
    rw [List.takeWhile_cons_of_neg (by rw [ht c u rfl]; decide), List.append_nil]

theorem NoDigit.dropWhile : (Nat.toDigits 10 n ++ t).dropWhile isDigit = t := by
  rw [List.dropWhile_append_of_pos (isDigit_toDigits n)]
  cases t with
  | nil => rfl
  | cons c u => rw [List.dropWhile_cons_of_neg (by rw [ht c u rfl]; decide)]

/-- The digits behind the sign, which the integer scanner has already taken. -/
theorem NoDigit.scanDigits (sign : Text) : (match Nat.toDigits 10 n ++ t with
    | '0' :: u => some (sign ++ ['0'], u)
    | u => if (u.takeWhile isDigit).isEmpty then none
        else some (sign ++ u.takeWhile isDigit, u.dropWhile isDigit)) =
      some (sign ++ Nat.toDigits 10 n, t) := by
  cases n with
  | zero => rfl
  | succ n =>
    split
    next u hu =>
      cases hd : Nat.toDigits 10 (n + 1) with
      | nil => exact absurd hd Nat.toDigits_ne_nil
      | cons d v =>
        rw [hd] at hu
        exact absurd (List.cons.inj hu).1 (toDigits_head (n + 1) (by omega) d v hd)
    next =>
      rw [ht.takeWhile, ht.dropWhile, if_neg]
      rw [List.isEmpty_iff]
      exact Nat.toDigits_ne_nil

end Digits

theorem scanInteger_intText (z : Int) {t : Text} (ht : NoDigit t) :
    scanInteger (intText z ++ t) = some (intText z, t) := by
  cases z with
  | ofNat n =>
    have hsign : ((Nat.toDigits 10 n ++ t).take 1).filter (fun c => c == '-') = [] := by
      cases hd : Nat.toDigits 10 n with
      | nil => exact absurd hd Nat.toDigits_ne_nil
      | cons d v =>
        have hdig := isDigit_toDigits n d (by rw [hd]; exact List.mem_cons_self)
        simp [ne_of_isDigit hdig (d := '-') rfl]
    simp only [intText, scanInteger, hsign]
    exact ht.scanDigits n []
  | negSucc n => exact ht.scanDigits (n + 1) ['-']

theorem isNumber_intText (z : Int) : IsNumber (intText z) := by
  have h := scanInteger_intText z noDigit_nil
  rw [List.append_nil] at h
  rw [IsNumber, scanNumber, h]
  simp [scanFraction, scanExponent]

theorem isNumber_fraction (z : Int) (n : Nat) : IsNumber (intText z ++ '.' :: Nat.toDigits 10 n) := by
  have htake := noDigit_nil.takeWhile n
  have hdrop := noDigit_nil.dropWhile n
  rw [List.append_nil] at htake hdrop
  rw [IsNumber, scanNumber, scanInteger_intText z (noDigit_dot _)]
  simp [scanFraction, scanExponent, htake, hdrop, Nat.toDigits_ne_nil]

theorem isIntegral_intText (z : Int) : isIntegral (intText z) = true := by
  have hdigits : ∀ n, isIntegral (Nat.toDigits 10 n) = true := by
    intro n
    rw [isIntegral, List.all_eq_true]
    intro c hc
    rw [isDigit_toDigits n c hc, Bool.true_or]
  cases z with
  | ofNat n => exact hdigits n
  | negSucc n => exact hdigits (n + 1)

end Json

theorem toDigits_injective {m n : Nat} (h : Nat.toDigits 10 m = Nat.toDigits 10 n) : m = n := by
  have hm := Nat.ofDigitChars_ten_toDigits (n := m)
  rw [h, Nat.ofDigitChars_ten_toDigits] at hm
  exact hm.symm

/-- The digits of a natural number do not begin with a sign. -/
theorem toDigits_ne_minus (n : Nat) (t : Text) : Nat.toDigits 10 n ≠ '-' :: t := by
  intro h
  have hdigit := Json.isDigit_toDigits n '-' (by rw [h]; exact List.mem_cons_self)
  exact absurd hdigit (by decide)

theorem intText_injective : Function.Injective intText := by
  intro a b h
  cases a with
  | ofNat m =>
    cases b with
    | ofNat n => rw [toDigits_injective h]
    | negSucc n => exact absurd h (toDigits_ne_minus m _)
  | negSucc m =>
    cases b with
    | ofNat n => exact absurd h.symm (toDigits_ne_minus n _)
    | negSucc n =>
      have := toDigits_injective (List.cons.inj h).2
      rw [Nat.succ.inj this]

end Codec
