/-
How `json.loads` reads a byte string.

The encoding is told from a byte order mark or from the zero bytes of the first
characters.  Surrogates that an encoding should not have are passed through, each as a
code point of its own.
-/
import AdaptiveGateway.Python.Value

namespace Python

open Codec

inductive ByteOrder where
  | little | big
deriving DecidableEq, Repr

/-! ## UTF-8 -/

def isContinuation (b : UInt8) : Bool := decide (0x80 ≤ b.toNat ∧ b.toNat < 0xc0)

/-- A surrogate in three bytes, of which these are the last two. -/
def surrogate (b c : UInt8) : Option CodePoint :=
  if 0xa0 ≤ b.toNat ∧ isContinuation b ∧ isContinuation c then
    some (codePoint (0xd000 + (b.toNat - 0x80) * 64 + (c.toNat - 0x80)))
  else none

/-- `b.decode("utf-8", "surrogatepass")`, with the bytes since the last surrogate, the
last one first. -/
def utf8Pass : Bytes → Bytes → Option Str
  | behind, a :: b :: c :: rest =>
    match if a = 0xed then surrogate b c else none with
    | some p => (utf8Decode behind.reverse).bind fun t =>
        (utf8Pass [] rest).map fun s => Str.ofText t ++ p :: s
    | none => utf8Pass (a :: behind) (b :: c :: rest)
  | behind, a :: rest => utf8Pass (a :: behind) rest
  | behind, [] => (utf8Decode behind.reverse).map Str.ofText

/-! ## UTF-16 and UTF-32 -/

def utf16Units (order : ByteOrder) : Bytes → Option (List Nat)
  | [] => some []
  | [_] => none
  | a :: b :: rest =>
    let unit := match order with
      | .little => a.toNat + 256 * b.toNat
      | .big => 256 * a.toNat + b.toNat
    (utf16Units order rest).map (unit :: ·)

/-- The string of a sequence of UTF-16 units. -/
def utf16Str : List Nat → Str
  | [] => []
  | [u] => [codePoint u]
  | u :: v :: rest =>
    if (0xd800 ≤ u ∧ u < 0xdc00) ∧ 0xdc00 ≤ v ∧ v < 0xe000 then
      codePoint (0x10000 + (u - 0xd800) * 1024 + (v - 0xdc00)) :: utf16Str rest
    else codePoint u :: utf16Str (v :: rest)

def utf16Pass (order : ByteOrder) (b : Bytes) : Option Str := (utf16Units order b).map utf16Str

def utf32Pass (order : ByteOrder) : Bytes → Option Str
  | [] => some []
  | a :: b :: c :: d :: rest =>
    let n := match order with
      | .little => a.toNat + 256 * (b.toNat + 256 * (c.toNat + 256 * d.toNat))
      | .big => d.toNat + 256 * (c.toNat + 256 * (b.toNat + 256 * a.toNat))
    if n < 0x110000 then (utf32Pass order rest).map (codePoint n :: ·) else none
  | _ => none

/-! ## The encoding -/

inductive Encoding where
  | utf8
  | utf16 (order : ByteOrder)
  | utf32 (order : ByteOrder)
deriving DecidableEq, Repr

/-- `json.detect_encoding`, with the bytes behind the byte order mark. -/
def detectEncoding : Bytes → Encoding × Bytes
  | 0x00 :: 0x00 :: 0xfe :: 0xff :: b => (.utf32 .big, b)
  | 0xff :: 0xfe :: 0x00 :: 0x00 :: b => (.utf32 .little, b)
  | 0xfe :: 0xff :: b => (.utf16 .big, b)
  | 0xff :: 0xfe :: b => (.utf16 .little, b)
  | 0xef :: 0xbb :: 0xbf :: b => (.utf8, b)
  | b => (unmarked b, b)
where
  unmarked : Bytes → Encoding
    | a :: b :: c :: d :: _ =>
      if a = 0 then if b = 0 then .utf32 .big else .utf16 .big
      else if b = 0 then if c = 0 ∧ d = 0 then .utf32 .little else .utf16 .little
      else .utf8
    | [a, b] => if a = 0 then .utf16 .big else if b = 0 then .utf16 .little else .utf8
    | _ => .utf8

/-- `b.decode(detect_encoding(b), "surrogatepass")`. -/
def decodeBytes (b : Bytes) : Option Str :=
  match detectEncoding b with
  | (.utf8, b) => utf8Pass [] b
  | (.utf16 order, b) => utf16Pass order b
  | (.utf32 order, b) => utf32Pass order b

example : decodeBytes [0x22, 0xed, 0xa0, 0x80, 0x22] =
    some [.ofChar '"', codePoint 0xd800, .ofChar '"'] := by decide +kernel

/-! ## What is UTF-8 is read as such -/

theorem utf8Pass_skip {a : UInt8} {rest : Bytes} (h : a ≠ 0xed) (behind : Bytes) :
    utf8Pass behind (a :: rest) = utf8Pass (a :: behind) rest := by
  match rest with
  | [] | [_] => rfl
  | b :: c :: rest =>
    rw [utf8Pass]
    simp only [if_neg h]

theorem utf8Pass_ed {b : UInt8} {rest : Bytes} (h : b.toNat < 0xa0) (behind : Bytes) :
    utf8Pass behind (0xed :: b :: rest) = utf8Pass (0xed :: behind) (b :: rest) := by
  match rest with
  | [] => rfl
  | c :: rest =>
    have hnone : surrogate b c = none := if_neg fun hb => by omega
    rw [utf8Pass]
    simp only [if_true, hnone]

theorem toNat_ofNat_lt {n : Nat} (h : n < 256) : (UInt8.ofNat n).toNat = n := by
  rw [UInt8.toNat_ofNat', Nat.mod_eq_of_lt h]

theorem ofNat_ne_ed {n : Nat} (h : n < 256) (hne : n ≠ 0xed) : UInt8.ofNat n ≠ 0xed := by
  intro heq
  have hn := congrArg UInt8.toNat heq
  rw [toNat_ofNat_lt h] at hn
  exact hne hn

/-- The last byte but one of a scalar value in three bytes tells it from a surrogate. -/
theorem utf8Pass_char (c : Char) (behind rest : Bytes) :
    utf8Pass behind (String.utf8EncodeChar c ++ rest) =
      utf8Pass ((String.utf8EncodeChar c).reverse ++ behind) rest := by
  have hvalid : c.val.toNat < 0xd800 ∨ 0xdfff < c.val.toNat ∧ c.val.toNat < 0x110000 := c.valid
  simp only [String.utf8EncodeChar]
  generalize c.val.toNat = v at hvalid
  split
  next => exact utf8Pass_skip (ofNat_ne_ed (by omega) (by omega)) _
  next =>
    split
    next =>
      rw [List.cons_append, utf8Pass_skip (ofNat_ne_ed (by omega) (by omega)), List.cons_append,
        utf8Pass_skip (ofNat_ne_ed (by omega) (by omega))]
      rfl
    next =>
      split
      next =>
        have hfirst : utf8Pass behind (UInt8.ofNat (v / 4096 % 16 + 0xe0) ::
            UInt8.ofNat (v / 64 % 64 + 0x80) :: UInt8.ofNat (v % 64 + 0x80) :: rest) =
            utf8Pass (UInt8.ofNat (v / 4096 % 16 + 0xe0) :: behind)
              (UInt8.ofNat (v / 64 % 64 + 0x80) :: UInt8.ofNat (v % 64 + 0x80) :: rest) := by
          by_cases hed : v / 4096 % 16 + 0xe0 = 0xed
          · rw [hed]
            refine utf8Pass_ed ?_ behind
            rw [toNat_ofNat_lt (by omega)]
            omega
          · exact utf8Pass_skip (ofNat_ne_ed (by omega) hed) behind
        rw [List.cons_append, List.cons_append, List.cons_append, List.nil_append, hfirst,
          utf8Pass_skip (ofNat_ne_ed (by omega) (by omega)),
          utf8Pass_skip (ofNat_ne_ed (by omega) (by omega))]
        rfl
      next =>
        rw [List.cons_append, utf8Pass_skip (ofNat_ne_ed (by omega) (by omega)), List.cons_append,
          utf8Pass_skip (ofNat_ne_ed (by omega) (by omega)), List.cons_append,
          utf8Pass_skip (ofNat_ne_ed (by omega) (by omega)), List.cons_append,
          utf8Pass_skip (ofNat_ne_ed (by omega) (by omega))]
        rfl

theorem utf8Pass_append (t : Text) (behind : Bytes) :
    utf8Pass behind (utf8 t) = (utf8Decode (behind.reverse ++ utf8 t)).map Str.ofText := by
  induction t generalizing behind with
  | nil =>
    rw [show utf8 [] = [] from rfl, List.append_nil]
    rfl
  | cons c t ih =>
    have hcons : utf8 (c :: t) = String.utf8EncodeChar c ++ utf8 t := List.flatMap_cons
    rw [hcons, utf8Pass_char, ih, List.reverse_append, List.reverse_reverse, List.append_assoc]

/-- Text in UTF-8 is read as this text. -/
theorem utf8Pass_utf8 (t : Text) : utf8Pass [] (utf8 t) = some (Str.ofText t) := by
  rw [utf8Pass_append, List.reverse_nil, List.nil_append, utf8Decode_utf8]
  rfl

theorem decodeBytes_utf8 {t : Text} (h : detectEncoding (utf8 t) = (.utf8, utf8 t)) :
    decodeBytes (utf8 t) = some (Str.ofText t) := by
  rw [decodeBytes, h]
  exact utf8Pass_utf8 t

end Python
