/-
Base64 as Python's `base64` module writes and reads it.

`b64encode` pads to groups of four characters.  `b64decode` is the decoder in its
default mode: characters outside the alphabet are skipped, a complete run of
padding ends the text, and a text that breaks off inside a group is refused.
-/
import AdaptiveGateway.Codec.Text

namespace Codec
namespace Base64

/-- The character for six bits. -/
def digit (d : Nat) : Char :=
  if d < 26 then Char.ofNat (65 + d)
  else if d < 52 then Char.ofNat (71 + d)
  else if d < 62 then Char.ofNat (d - 4)
  else if d = 62 then '+' else '/'

def value (c : Char) : Option Nat :=
  if 65 ≤ c.toNat ∧ c.toNat ≤ 90 then some (c.toNat - 65)
  else if 97 ≤ c.toNat ∧ c.toNat ≤ 122 then some (c.toNat - 71)
  else if 48 ≤ c.toNat ∧ c.toNat ≤ 57 then some (c.toNat + 4)
  else if c = '+' then some 62
  else if c = '/' then some 63
  else none

/-- `base64.b64encode`. -/
def b64encode : Bytes → Text
  | [] => []
  | [a] => [digit (a.toNat / 4), digit (a.toNat % 4 * 16), '=', '=']
  | [a, b] =>
    [digit (a.toNat / 4), digit (a.toNat % 4 * 16 + b.toNat / 16), digit (b.toNat % 16 * 4), '=']
  | a :: b :: c :: t =>
    digit (a.toNat / 4) :: digit (a.toNat % 4 * 16 + b.toNat / 16) ::
      digit (b.toNat % 16 * 4 + c.toNat / 64) :: digit (c.toNat % 64) :: b64encode t

/-- The decoder's loop.  `quad` is the position in the current group, `left` the
bits that wait for the next character, and `pads` counts the padding since the
last digit. -/
def a2b (quad left pads : Nat) : Text → Option Bytes
  | [] => if quad = 0 then some [] else none
  | c :: t =>
    if c = '=' then
      if 2 ≤ quad ∧ 4 ≤ quad + (pads + 1) then some []
      else a2b quad left (if 2 ≤ quad then pads + 1 else pads) t
    else
      match value c with
      | none => a2b quad left pads t
      | some v =>
        match quad with
        | 0 => a2b 1 v 0 t
        | 1 => (a2b 2 (v % 16) 0 t).map (UInt8.ofNat (left * 4 + v / 16) :: ·)
        | 2 => (a2b 3 (v % 4) 0 t).map (UInt8.ofNat (left * 16 + v / 4) :: ·)
        | _ => (a2b 0 0 0 t).map (UInt8.ofNat (left * 64 + v) :: ·)

/-- `base64.b64decode` of a text, which has to be ASCII. -/
def b64decode (t : Text) : Option Bytes :=
  if t.all fun c => decide (c.toNat < 128) then a2b 0 0 0 t else none

/-! ## The round trip -/

theorem digit_facts {d : Nat} (h : d < 64) :
    value (digit d) = some d ∧ digit d ≠ '=' ∧ (digit d).toNat < 128 := by
  have hall : ∀ d < 64, value (digit d) = some d ∧ digit d ≠ '=' ∧ (digit d).toNat < 128 := by
    decide
  exact hall d h

section Loop

variable {d : Nat} (h : d < 64) (left pads : Nat) (t : Text)
include h

theorem a2b_first : a2b 0 left pads (digit d :: t) = a2b 1 d 0 t := by
  obtain ⟨hvalue, hpad, -⟩ := digit_facts h
  simp only [a2b, if_neg hpad, hvalue]

theorem a2b_second : a2b 1 left pads (digit d :: t) =
    (a2b 2 (d % 16) 0 t).map (UInt8.ofNat (left * 4 + d / 16) :: ·) := by
  obtain ⟨hvalue, hpad, -⟩ := digit_facts h
  simp only [a2b, if_neg hpad, hvalue]

theorem a2b_third : a2b 2 left pads (digit d :: t) =
    (a2b 3 (d % 4) 0 t).map (UInt8.ofNat (left * 16 + d / 4) :: ·) := by
  obtain ⟨hvalue, hpad, -⟩ := digit_facts h
  simp only [a2b, if_neg hpad, hvalue]

theorem a2b_fourth : a2b 3 left pads (digit d :: t) =
    (a2b 0 0 0 t).map (UInt8.ofNat (left * 64 + d) :: ·) := by
  obtain ⟨hvalue, hpad, -⟩ := digit_facts h
  simp only [a2b, if_neg hpad, hvalue]

end Loop

theorem ofNat_eq {a : UInt8} {n : Nat} (h : n = a.toNat) : UInt8.ofNat n = a := by
  rw [h, UInt8.ofNat_toNat]

theorem a2b_b64encode (b : Bytes) : a2b 0 0 0 (b64encode b) = some b := by
  induction b using b64encode.induct with
  | case1 => rfl
  | case2 a =>
    have ha : a.toNat < 256 := a.toNat_lt
    have h1 : a.toNat / 4 * 4 + a.toNat % 4 * 16 / 16 = a.toNat := by omega
    rw [b64encode, a2b_first (by omega), a2b_second (by omega), ofNat_eq h1]
    rfl
  | case3 a b =>
    have ha : a.toNat < 256 := a.toNat_lt
    have hb : b.toNat < 256 := b.toNat_lt
    have h1 : a.toNat / 4 * 4 + (a.toNat % 4 * 16 + b.toNat / 16) / 16 = a.toNat := by omega
    have h2 : (a.toNat % 4 * 16 + b.toNat / 16) % 16 * 16 + b.toNat % 16 * 4 / 4 = b.toNat := by
      omega
    rw [b64encode, a2b_first (by omega), a2b_second (by omega), a2b_third (by omega),
      ofNat_eq h1, ofNat_eq h2]
    rfl
  | case4 a b c t ih =>
    have ha : a.toNat < 256 := a.toNat_lt
    have hb : b.toNat < 256 := b.toNat_lt
    have hc : c.toNat < 256 := c.toNat_lt
    have h1 : a.toNat / 4 * 4 + (a.toNat % 4 * 16 + b.toNat / 16) / 16 = a.toNat := by omega
    have h2 : (a.toNat % 4 * 16 + b.toNat / 16) % 16 * 16 +
        (b.toNat % 16 * 4 + c.toNat / 64) / 4 = b.toNat := by omega
    have h3 : (b.toNat % 16 * 4 + c.toNat / 64) % 4 * 64 + c.toNat % 64 = c.toNat := by omega
    rw [b64encode, a2b_first (by omega), a2b_second (by omega), a2b_third (by omega),
      a2b_fourth (by omega), ofNat_eq h1, ofNat_eq h2, ofNat_eq h3, ih]
    rfl

theorem b64encode_ascii (b : Bytes) :
    ((b64encode b).all fun c => decide (c.toNat < 128)) = true := by
  have hdigit : ∀ {d : Nat}, d < 64 → decide ((digit d).toNat < 128) = true :=
    fun h => decide_eq_true (digit_facts h).2.2
  have hpad : decide (('='.toNat : Nat) < 128) = true := by decide
  induction b using b64encode.induct with
  | case1 => rfl
  | case2 a =>
    have ha : a.toNat < 256 := a.toNat_lt
    simp only [b64encode, List.all_cons, hdigit (show a.toNat / 4 < 64 by omega),
      hdigit (show a.toNat % 4 * 16 < 64 by omega), hpad, List.all_nil, Bool.and_self]
  | case3 a b =>
    have ha : a.toNat < 256 := a.toNat_lt
    have hb : b.toNat < 256 := b.toNat_lt
    simp only [b64encode, List.all_cons, hdigit (show a.toNat / 4 < 64 by omega),
      hdigit (show a.toNat % 4 * 16 + b.toNat / 16 < 64 by omega),
      hdigit (show b.toNat % 16 * 4 < 64 by omega), hpad, List.all_nil, Bool.and_self]
  | case4 a b c t ih =>
    have ha : a.toNat < 256 := a.toNat_lt
    have hb : b.toNat < 256 := b.toNat_lt
    have hc : c.toNat < 256 := c.toNat_lt
    simp only [b64encode, List.all_cons, hdigit (show a.toNat / 4 < 64 by omega),
      hdigit (show a.toNat % 4 * 16 + b.toNat / 16 < 64 by omega),
      hdigit (show b.toNat % 16 * 4 + c.toNat / 64 < 64 by omega),
      hdigit (show c.toNat % 64 < 64 by omega), ih, Bool.and_self]

theorem b64decode_b64encode (b : Bytes) : b64decode (b64encode b) = some b := by
  rw [b64decode, if_pos (b64encode_ascii b), a2b_b64encode]

end Base64
end Codec
