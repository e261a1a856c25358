/-
How Python turns numbers into text and back.

The conversions are a parameter.  `Faithful` is what is relied on: `int` and `float`
read back what `repr` writes, and `repr` of a float is a JSON number with a fraction
or an exponent.  `Binary64` has one zero, which is the positive one for `repr`; `float`
makes it of literals with either sign.
-/
import AdaptiveGateway.Codec.Decimal
import AdaptiveGateway.Numeric.Binary64
import AdaptiveGateway.Python.Loads

namespace AdaptiveGateway

open Codec Numeric

structure Numbers where
  /-- `float(s)`, `none` for `ValueError`. -/
  float : Text → Option Binary64
  /-- `float.__repr__`. -/
  repr : Binary64 → Text
  /-- `int(s)`, `none` for `ValueError`. -/
  int : Text → Option Int

structure Numbers.Faithful (py : Numbers) : Prop where
  int_intText : ∀ n, py.int (intText n) = some n
  float_repr : ∀ x : Binary64, x.isFinite = true → py.float (py.repr x) = some x
  repr_number : ∀ x : Binary64, x.isFinite = true → Json.IsNumber (py.repr x)
  /-- A float is written with a fraction or an exponent. -/
  repr_fraction : ∀ x : Binary64, x.isFinite = true → Json.isIntegral (py.repr x) = false
  /-- Zero is written without a sign. -/
  repr_zero : (py.repr .zero).head? ≠ some '-'

theorem Numbers.Faithful.converts {py : Numbers} (h : py.Faithful) :
    Python.Value.Converts py.repr py.int py.float :=
  ⟨h.int_intText, h.float_repr, h.repr_number, h.repr_fraction, h.repr_zero⟩

/-! ## The setting of the tests -/

/-- A number with its numerator in front of the point and, unless it is an integer,
its denominator behind it.  An integer is written as Python writes it. -/
def mockRepr : Binary64 → Text
  | .fin q _ _ => intText q.num ++ '.' :: Nat.toDigits 10 (if q.den = 1 then 0 else q.den)
  | _ => []

open Classical in
noncomputable def mockNumbers : Numbers where
  float t := if h : ∃ x : Binary64, x.isFinite = true ∧ mockRepr x = t then some h.choose else none
  repr := mockRepr
  int t := if h : ∃ n, intText n = t then some h.choose else none

theorem mockRepr_injective {x y : Binary64} (hx : x.isFinite = true) (hy : y.isFinite = true)
    (h : mockRepr x = mockRepr y) : x = y := by
  obtain ⟨p, hp, hp', rfl⟩ := Binary64.exists_fin hx
  obtain ⟨q, hq, hq', rfl⟩ := Binary64.exists_fin hy
  have hscan := congrArg Json.scanInteger h
  simp only [mockRepr, Json.scanInteger_intText _ (Json.noDigit_dot _), Option.some.injEq,
    Prod.mk.injEq, List.cons.injEq, true_and] at hscan
  have hnum : p.num = q.num := intText_injective hscan.1
  have hden := toDigits_injective hscan.2
  have hden' : p.den = q.den := by
    have := p.den_nz
    have := q.den_nz
    split at hden <;> split at hden <;> omega
  exact Binary64.fin_congr (Rat.ext hnum hden')

theorem mockNumbers_faithful : mockNumbers.Faithful where
  int_intText n := by
    have h : ∃ m, intText m = intText n := ⟨n, rfl⟩
    simp only [mockNumbers]
    rw [dif_pos h, intText_injective h.choose_spec]
  float_repr x hx := by
    have h : ∃ y : Binary64, y.isFinite = true ∧ mockRepr y = mockRepr x := ⟨x, hx, rfl⟩
    simp only [mockNumbers]
    rw [dif_pos h, mockRepr_injective h.choose_spec.1 hx h.choose_spec.2]
  repr_number x hx := by
    obtain ⟨q, hq, hq', rfl⟩ := Binary64.exists_fin hx
    exact Json.isNumber_fraction _ _
  repr_fraction x hx := by
    obtain ⟨q, hq, hq', rfl⟩ := Binary64.exists_fin hx
    show (intText q.num ++ '.' :: _).all _ = false
    rw [List.all_append, List.all_cons, Bool.and_comm]
    rfl
  repr_zero := by
    show (mockRepr .zero).head? ≠ _
    decide +kernel

end AdaptiveGateway
