/-
The values that `json.loads` makes.

A string is a list of code points, which may be unpaired surrogates.  `Binary64` has one
zero, so the negative zero is a value of its own.  A dictionary is the list of its items
in insertion order; `Keyed` says that no key occurs twice, here or further down.
-/
import AdaptiveGateway.Codec.Text
import AdaptiveGateway.Codec.Dict
import AdaptiveGateway.Numeric.Binary64

namespace Python

open Codec Numeric

abbrev CodePoint := Fin 0x110000

abbrev Str := List CodePoint

theorem toNat_lt (c : Char) : c.toNat < 0x110000 := by
  have h : c.toNat < 0xd800 ∨ 0xdfff < c.toNat ∧ c.toNat < 0x110000 := c.valid
  omega

def codePoint (n : Nat) : CodePoint := Fin.ofNat 0x110000 n

theorem codePoint_val (p : CodePoint) : codePoint p.val = p :=
  Fin.ext (Nat.mod_eq_of_lt p.isLt)

def CodePoint.ofChar (c : Char) : CodePoint := ⟨c.toNat, toNat_lt c⟩

/-- A text has no surrogates, and is a string all the same. -/
def Str.ofText (t : Text) : Str := t.map CodePoint.ofChar

instance : Coe String Str := ⟨fun s => Str.ofText s.toList⟩

instance : LawfulBEq Str := inferInstance

theorem CodePoint.ofChar_injective {c d : Char} (h : CodePoint.ofChar c = CodePoint.ofChar d) :
    c = d := Char.toNat_inj.mp (Fin.mk.inj_iff.mp h)

theorem Str.ofText_injective {t u : Text} (h : Str.ofText t = Str.ofText u) : t = u :=
  List.map_injective_iff.mpr (fun _ _ => CodePoint.ofChar_injective) h

inductive Value where
  /-- `None` -/
  | null
  | bool (b : Bool)
  | int (n : ℤ)
  | float (x : Binary64)
  /-- `-0.0` -/
  | negZero
  | str (s : Str)
  | list (xs : List Value)
  | dict (ms : List (Str × Value))

namespace Value

/-! ## Equality -/

mutual
def beq : Value → Value → Bool
  | null, null => true
  | bool a, bool b => decide (a = b)
  | int a, int b => decide (a = b)
  | float a, float b => decide (a = b)
  | negZero, negZero => true
  | str a, str b => decide (a = b)
  | list xs, list ys => beqElems xs ys
  | dict ms, dict ns => beqMembers ms ns
  | _, _ => false

def beqElems : List Value → List Value → Bool
  | [], [] => true
  | x :: xs, y :: ys => beq x y && beqElems xs ys
  | _, _ => false

def beqMembers : List (Str × Value) → List (Str × Value) → Bool
  | [], [] => true
  | m :: ms, n :: ns => decide (m.1 = n.1) && beq m.2 n.2 && beqMembers ms ns
  | _, _ => false
end

mutual
theorem beq_iff : ∀ v w : Value, beq v w = true ↔ v = w
  | null, w => by cases w <;> simp [beq]
  | bool a, w => by cases w <;> simp [beq]
  | int a, w => by cases w <;> simp [beq]
  | float a, w => by cases w <;> simp [beq]
  | negZero, w => by cases w <;> simp [beq]
  | str a, w => by cases w <;> simp [beq]
  | list xs, w => by cases w <;> simp [beq, beqElems_iff xs]
  | dict ms, w => by cases w <;> simp [beq, beqMembers_iff ms]

theorem beqElems_iff : ∀ xs ys : List Value, beqElems xs ys = true ↔ xs = ys
  | [], ys => by cases ys <;> simp [beqElems]
  | x :: xs, ys => by cases ys <;> simp [beqElems, beq_iff x, beqElems_iff xs]

theorem beqMembers_iff : ∀ ms ns : List (Str × Value), beqMembers ms ns = true ↔ ms = ns
  | [], ns => by cases ns <;> simp [beqMembers]
  | m :: ms, ns => by
    cases ns <;> simp [beqMembers, beq_iff m.2, beqMembers_iff ms, Prod.ext_iff]
end

instance : DecidableEq Value := fun v w => decidable_of_iff _ (beq_iff v w)

/-- `bool(v)`. -/
def truthy : Value → Bool
  | null => false
  | bool b => b
  | int n => decide (n ≠ 0)
  | float x => decide (x ≠ .zero)
  | negZero => false
  | str s => !s.isEmpty
  | list xs => !xs.isEmpty
  | dict ms => !ms.isEmpty

/-! ## Distinct keys -/

mutual
/-- No dictionary has a key twice. -/
def Keyed : Value → Prop
  | list xs => KeyedElems xs
  | dict ms => (ms.map Prod.fst).Nodup ∧ KeyedMembers ms
  | _ => True

def KeyedElems : List Value → Prop
  | [] => True
  | x :: xs => Keyed x ∧ KeyedElems xs

def KeyedMembers : List (Str × Value) → Prop
  | [] => True
  | m :: ms => Keyed m.2 ∧ KeyedMembers ms
end

theorem keyedElems_iff {xs : List Value} : KeyedElems xs ↔ ∀ x ∈ xs, Keyed x := by
  induction xs with
  | nil => simp [KeyedElems]
  | cons x xs ih => simp [KeyedElems, ih]

theorem keyedMembers_iff {ms : List (Str × Value)} :
    KeyedMembers ms ↔ ∀ m ∈ ms, Keyed m.2 := by
  induction ms with
  | nil => simp [KeyedMembers]
  | cons m ms ih => simp [KeyedMembers, ih]

end Value

end Python
