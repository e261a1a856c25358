/-
JSON texts as Python's `json` module writes and reads them.

`dumps` writes with the module's defaults: `", "` and `": "` as separators and
every character outside printable ASCII escaped.  `loads` reads the module's
grammar, including insignificant whitespace, the three non-finite number names
and duplicate object keys, of which the last one wins in the place of the first.
A number is kept as its literal, since nothing here computes with one.

Texts are lists of scalar values, so a string holds no unpaired surrogate.  An
escape that names one is refused.

`loads_dumps` is the round trip, for values whose objects have distinct keys
and whose numbers are written as numbers.
-/
import AdaptiveGateway.Codec.Text
import AdaptiveGateway.Codec.Dict
import Mathlib.Data.List.TakeWhile
import Mathlib.Tactic.IntervalCases
import Mathlib.Tactic.SplitIfs

namespace Codec

inductive Json where
  | null
  | bool (b : Bool)
  | num (lit : Text)
  | str (s : Text)
  | arr (xs : List Json)
  | obj (ms : List (Text × Json))

namespace Json

/-! ## Equality -/

mutual
def beq : Json → Json → Bool
  | null, null => true
  | bool a, bool b => decide (a = b)
  | num a, num b => decide (a = b)
  | str a, str b => decide (a = b)
  | arr xs, arr ys => beqElems xs ys
  | obj ms, obj ns => beqMembers ms ns
  | _, _ => false

def beqElems : List Json → List Json → Bool
  | [], [] => true
  | x :: xs, y :: ys => beq x y && beqElems xs ys
  | _, _ => false

def beqMembers : List (Text × Json) → List (Text × Json) → Bool
  | [], [] => true
  | m :: ms, n :: ns => decide (m.1 = n.1) && beq m.2 n.2 && beqMembers ms ns
  | _, _ => false
end

mutual
theorem beq_iff : ∀ v w : Json, beq v w = true ↔ v = w
  | null, w => by cases w <;> simp [beq]
  | bool a, w => by cases w <;> simp [beq]
  | num a, w => by cases w <;> simp [beq]
  | str a, w => by cases w <;> simp [beq]
  | arr xs, w => by cases w <;> simp [beq, beqElems_iff xs]
  | obj ms, w => by cases w <;> simp [beq, beqMembers_iff ms]

theorem beqElems_iff : ∀ xs ys : List Json, beqElems xs ys = true ↔ xs = ys
  | [], ys => by cases ys <;> simp [beqElems]
  | x :: xs, ys => by cases ys <;> simp [beqElems, beq_iff x, beqElems_iff xs]

theorem beqMembers_iff : ∀ ms ns : List (Text × Json), beqMembers ms ns = true ↔ ms = ns
  | [], ns => by cases ns <;> simp [beqMembers]
  | m :: ms, ns => by
    cases ns <;> simp [beqMembers, beq_iff m.2, beqMembers_iff ms, Prod.ext_iff]
end

instance : DecidableEq Json := fun v w => decidable_of_iff _ (beq_iff v w)
/-! ## Writing -/

def hexDigit (d : Nat) : Char := Char.ofNat (if d < 10 then 48 + d else 87 + d)

/-- `'{0:04x}'`. -/
def hex4 (n : Nat) : Text :=
  [hexDigit (n / 4096 % 16), hexDigit (n / 256 % 16), hexDigit (n / 16 % 16), hexDigit (n % 16)]

/-- A character inside a string literal. -/
def escape (c : Char) : Text :=
  if c = '"' then ['\\', '"']
  else if c = '\\' then ['\\', '\\']
  else if c = '\n' then ['\\', 'n']
  else if c = '\r' then ['\\', 'r']
  else if c = '\t' then ['\\', 't']
  else if c = '\x08' then ['\\', 'b']
  else if c = '\x0c' then ['\\', 'f']
  else if 32 ≤ c.toNat ∧ c.toNat < 127 then [c]
  else if c.toNat < 0x10000 then '\\' :: 'u' :: hex4 c.toNat
  else
    -- Above the basic plane a character is written as its surrogate pair.
    let v := c.toNat - 0x10000
    '\\' :: 'u' :: hex4 (0xd800 + v / 1024) ++ '\\' :: 'u' :: hex4 (0xdc00 + v % 1024)

def dumpsStr (s : Text) : Text := '"' :: s.flatMap escape ++ ['"']

mutual
def dumps : Json → Text
  | null => ['n', 'u', 'l', 'l']
  | bool true => ['t', 'r', 'u', 'e']
  | bool false => ['f', 'a', 'l', 's', 'e']
  | num lit => lit
  | str s => dumpsStr s
  | arr xs => '[' :: dumpsElems xs
  | obj ms => '{' :: dumpsMembers ms

/-- The rest of an array behind its bracket. -/
def dumpsElems : List Json → Text
  | [] => [']']
  | [x] => dumps x ++ [']']
  | x :: y :: xs => dumps x ++ ',' :: ' ' :: dumpsElems (y :: xs)

/-- The rest of an object behind its brace. -/
def dumpsMembers : List (Text × Json) → Text
  | [] => ['}']
  | [m] => dumpsStr m.1 ++ ':' :: ' ' :: dumps m.2 ++ ['}']
  | m :: n :: ms => dumpsStr m.1 ++ ':' :: ' ' :: dumps m.2 ++ ',' :: ' ' :: dumpsMembers (n :: ms)
end

/-! ## Reading -/

def hexVal (c : Char) : Option Nat :=
  if 48 ≤ c.toNat ∧ c.toNat < 58 then some (c.toNat - 48)
  else if 97 ≤ c.toNat ∧ c.toNat < 103 then some (c.toNat - 87)
  else if 65 ≤ c.toNat ∧ c.toNat < 71 then some (c.toNat - 55)
  else none

def scanHex4 : Text → Option (Nat × Text)
  | a :: b :: c :: d :: t =>
    match hexVal a, hexVal b, hexVal c, hexVal d with
    | some a, some b, some c, some d => some (a * 4096 + b * 256 + c * 16 + d, t)
    | _, _, _, _ => none
  | _ => none

/-- The character an escape behind its backslash stands for. -/
def scanEscape : Text → Option (Char × Text)
  | '"' :: t => some ('"', t)
  | '\\' :: t => some ('\\', t)
  | '/' :: t => some ('/', t)
  | 'b' :: t => some ('\x08', t)
  | 'f' :: t => some ('\x0c', t)
  | 'n' :: t => some ('\n', t)
  | 'r' :: t => some ('\r', t)
  | 't' :: t => some ('\t', t)
  | 'u' :: t =>
    match scanHex4 t with
    | none => none
    | some (n, t) =>
      if 0xd800 ≤ n ∧ n < 0xdc00 then
        match t with
        | '\\' :: 'u' :: t =>
          match scanHex4 t with
          | some (m, t) =>
            if 0xdc00 ≤ m ∧ m < 0xe000 then
              some (Char.ofNat (0x10000 + (n - 0xd800) * 1024 + (m - 0xdc00)), t)
            else none
          | none => none
        | _ => none
      else if 0xdc00 ≤ n ∧ n < 0xe000 then none
      else some (Char.ofNat n, t)
  | _ => none

/-- The rest of a string literal behind its quote.  Every round takes at least
one character, so the length of the text is fuel enough. -/
def scanString : Nat → Text → Option (Text × Text)
  | 0, _ => none
  | _ + 1, [] => none
  | n + 1, c :: t =>
    if c = '"' then some ([], t)
    else if c = '\\' then
      match scanEscape t with
      | none => none
      | some (d, t) => (scanString n t).map fun r => (d :: r.1, r.2)
    else if c.toNat < 32 then none
    else (scanString n t).map fun r => (c :: r.1, r.2)

def isWs (c : Char) : Bool := c == ' ' || c == '\t' || c == '\n' || c == '\r'

def skipWs (t : Text) : Text := t.dropWhile isWs

def isDigit (c : Char) : Bool := decide (48 ≤ c.toNat ∧ c.toNat < 58)

/-- `(\.\d+)?` -/
def scanFraction : Text → Text × Text
  | '.' :: t => if (t.takeWhile isDigit).isEmpty then ([], '.' :: t)
      else ('.' :: t.takeWhile isDigit, t.dropWhile isDigit)
  | t => ([], t)

/-- `([eE][-+]?\d+)?` -/
def scanExponent : Text → Text × Text
  | e :: t =>
    if e = 'e' ∨ e = 'E' then
      let sign := t.take 1 |>.filter fun c => c == '-' || c == '+'
      let u := t.drop sign.length
      if (u.takeWhile isDigit).isEmpty then ([], e :: t)
      else (e :: sign ++ u.takeWhile isDigit, u.dropWhile isDigit)
    else ([], e :: t)
  | [] => ([], [])

/-- `-?(0|[1-9]\d*)` -/
def scanInteger (t : Text) : Option (Text × Text) :=
  let sign := t.take 1 |>.filter fun c => c == '-'
  match t.drop sign.length with
  | '0' :: u => some (sign ++ ['0'], u)
  | u => if (u.takeWhile isDigit).isEmpty then none
      else some (sign ++ u.takeWhile isDigit, u.dropWhile isDigit)

def scanNumber (t : Text) : Option (Text × Text) :=
  match scanInteger t with
  | none => none
  | some (i, t) =>
    let f := scanFraction t
    let e := scanExponent f.2
    some (i ++ f.1 ++ e.1, e.2)

/-- The value of an object literal: a repeated key keeps its first place and its
last value. -/
def mkObj (ms : List (Text × Json)) : Json := obj (Dict.ofPairs ms).items

def literals : List (Text × Json) :=
  [("null".toList, null), ("true".toList, bool true), ("false".toList, bool false),
    ("NaN".toList, num "NaN".toList), ("Infinity".toList, num "Infinity".toList),
    ("-Infinity".toList, num "-Infinity".toList)]

def scanLiteral (t : Text) : List (Text × Json) → Option (Json × Text)
  | [] => none
  | l :: ls => if l.1.isPrefixOf t then some (l.2, t.drop l.1.length) else scanLiteral t ls

mutual
/-- One value at the head of the text. -/
def scanValue : Nat → Text → Option (Json × Text)
  | 0, _ => none
  | n + 1, '"' :: t => (scanString n t).map fun r => (str r.1, r.2)
  | n + 1, '[' :: t =>
    match skipWs t with
    | ']' :: u => some (arr [], u)
    | u => (scanElems n u).map fun r => (arr r.1, r.2)
  | n + 1, '{' :: t =>
    match skipWs t with
    | '}' :: u => some (obj [], u)
    | u => (scanMembers n u).map fun r => (mkObj r.1, r.2)
  | _ + 1, t =>
    match scanLiteral t literals with
    | some r => some r
    | none => (scanNumber t).map fun r => (num r.1, r.2)

/-- Array elements up to the closing bracket. -/
def scanElems : Nat → Text → Option (List Json × Text)
  | 0, _ => none
  | n + 1, t =>
    match scanValue n t with
    | none => none
    | some (x, t) =>
      match skipWs t with
      | ']' :: u => some ([x], u)
      | ',' :: u => (scanElems n (skipWs u)).map fun r => (x :: r.1, r.2)
      | _ => none

/-- Object members up to the closing brace. -/
def scanMembers : Nat → Text → Option (List (Text × Json) × Text)
  | 0, _ => none
  | n + 1, '"' :: t =>
    match scanString n t with
    | none => none
    | some (k, t) =>
      match skipWs t with
      | ':' :: t =>
        match scanValue n (skipWs t) with
        | none => none
        | some (v, t) =>
          match skipWs t with
          | '}' :: u => some ([(k, v)], u)
          | ',' :: u => (scanMembers n (skipWs u)).map fun r => ((k, v) :: r.1, r.2)
          | _ => none
      | _ => none
  | _ + 1, _ => none
end

/-- `json.loads`; `none` where it raises `JSONDecodeError`. -/
def loads (t : Text) : Option Json :=
  match scanValue (t.length + 1) (skipWs t) with
  | some (v, u) => if (skipWs u).isEmpty then some v else none
  | none => none

/-! ## The string round trip -/

theorem hexVal_hexDigit {d : Nat} (h : d < 16) : hexVal (hexDigit d) = some d := by
  interval_cases d <;> rfl

theorem scanHex4_hex4 {n : Nat} (h : n < 65536) (t : Text) :
    scanHex4 (hex4 n ++ t) = some (n, t) := by
  have h3 : n / 4096 % 16 < 16 := Nat.mod_lt _ (by decide)
  have h2 : n / 256 % 16 < 16 := Nat.mod_lt _ (by decide)
  have h1 : n / 16 % 16 < 16 := Nat.mod_lt _ (by decide)
  have h0 : n % 16 < 16 := Nat.mod_lt _ (by decide)
  simp only [hex4, List.cons_append, List.nil_append, scanHex4, hexVal_hexDigit h3,
    hexVal_hexDigit h2, hexVal_hexDigit h1, hexVal_hexDigit h0, Option.some.injEq, Prod.mk.injEq,
    and_true]
  omega

/-- A scalar value is not a surrogate. -/
theorem toNat_not_surrogate (c : Char) : c.toNat < 0xd800 ∨ (0xdfff < c.toNat ∧ c.toNat < 0x110000) :=
  c.valid

theorem scanEscape_bmp {c : Char} (h : c.toNat < 0x10000) (t : Text) :
    scanEscape ('u' :: hex4 c.toNat ++ t) = some (c, t) := by
  have hs := toNat_not_surrogate c
  have hhi : ¬(0xd800 ≤ c.toNat ∧ c.toNat < 0xdc00) := by omega
  have hlo : ¬(0xdc00 ≤ c.toNat ∧ c.toNat < 0xe000) := by omega
  simp [scanEscape, scanHex4_hex4 h, hhi, hlo]

theorem scanEscape_pair {c : Char} (h : 0x10000 ≤ c.toNat) (t : Text) :
    scanEscape ('u' :: hex4 (0xd800 + (c.toNat - 0x10000) / 1024) ++
      '\\' :: 'u' :: hex4 (0xdc00 + (c.toNat - 0x10000) % 1024) ++ t) = some (c, t) := by
  have hs := toNat_not_surrogate c
  have hmod : (c.toNat - 0x10000) % 1024 < 1024 := Nat.mod_lt _ (by decide)
  have hdiv : (c.toNat - 0x10000) / 1024 < 1024 := by omega
  have hhi : 0xd800 ≤ 0xd800 + (c.toNat - 0x10000) / 1024 ∧
      0xd800 + (c.toNat - 0x10000) / 1024 < 0xdc00 := by omega
  have hlo : 0xdc00 ≤ 0xdc00 + (c.toNat - 0x10000) % 1024 ∧
      0xdc00 + (c.toNat - 0x10000) % 1024 < 0xe000 := by omega
  have hval : 0x10000 + (0xd800 + (c.toNat - 0x10000) / 1024 - 0xd800) * 1024 +
      (0xdc00 + (c.toNat - 0x10000) % 1024 - 0xdc00) = c.toNat := by omega
  simp only [List.cons_append, List.append_assoc]
  rw [scanEscape, scanHex4_hex4 (by omega)]
  simp only [if_pos hhi, scanHex4_hex4 (show 0xdc00 + (c.toNat - 0x10000) % 1024 < 65536 by omega),
    if_pos hlo, hval, Char.ofNat_toNat]

theorem scanString_backslash {u t : Text} {d : Char} (h : scanEscape u = some (d, t)) (n : Nat) :
    scanString (n + 1) ('\\' :: u) = (scanString n t).map fun r => (d :: r.1, r.2) := by
  simp [scanString, h]

/-- The escapes of a single letter. -/
def letters : List (Char × Char) :=
  [('"', '"'), ('\\', '\\'), ('\n', 'n'), ('\r', 'r'), ('\t', 't'), ('\x08', 'b'), ('\x0c', 'f')]

/-- The four ways to write a character. -/
inductive Escaped (c : Char) : Text → Prop
  | letter {d : Char} (h : (c, d) ∈ letters) : Escaped c ['\\', d]
  | itself (hlow : 32 ≤ c.toNat) (hhigh : c.toNat < 127) (hquote : c ≠ '"')
      (hslash : c ≠ '\\') : Escaped c [c]
  | unit (h : c.toNat < 0x10000) : Escaped c ('\\' :: 'u' :: hex4 c.toNat)
  | pair (h : 0x10000 ≤ c.toNat) :
      Escaped c ('\\' :: 'u' :: hex4 (0xd800 + (c.toNat - 0x10000) / 1024) ++
        '\\' :: 'u' :: hex4 (0xdc00 + (c.toNat - 0x10000) % 1024))

theorem escaped_letter {c d e : Char} {t : Text} (hmem : (d, e) ∈ letters)
    (h : c ≠ d → Escaped c t) : Escaped c (if c = d then ['\\', e] else t) := by
  by_cases hd : c = d
  · rw [if_pos hd]
    exact .letter (hd ▸ hmem)
  · rw [if_neg hd]
    exact h hd

theorem escaped_escape (c : Char) : Escaped c (escape c) := by
  refine escaped_letter (by decide) fun hquote => escaped_letter (by decide) fun hslash => ?_
  refine escaped_letter (by decide) fun _ => escaped_letter (by decide) fun _ => ?_
  refine escaped_letter (by decide) fun _ => escaped_letter (by decide) fun _ => ?_
  refine escaped_letter (by decide) fun _ => ?_
  by_cases hascii : 32 ≤ c.toNat ∧ c.toNat < 127
  · rw [if_pos hascii]
    exact .itself hascii.1 hascii.2 hquote hslash
  · rw [if_neg hascii]
    by_cases hbasic : c.toNat < 0x10000
    · rw [if_pos hbasic]
      exact .unit hbasic
    · rw [if_neg hbasic]
      exact .pair (Nat.le_of_not_lt hbasic)

theorem scanEscape_letter {c d : Char} (h : (c, d) ∈ letters) (t : Text) :
    scanEscape (d :: t) = some (c, t) := by
  simp only [letters, List.mem_cons, Prod.mk.injEq, List.not_mem_nil, or_false] at h
  rcases h with ⟨rfl, rfl⟩ | ⟨rfl, rfl⟩ | ⟨rfl, rfl⟩ | ⟨rfl, rfl⟩ | ⟨rfl, rfl⟩ | ⟨rfl, rfl⟩ |
    ⟨rfl, rfl⟩ <;> rfl

/-- One character of a string literal is read back in one round. -/
theorem scanString_escape (n : Nat) (c : Char) (t : Text) :
    scanString (n + 1) (escape c ++ t) = (scanString n t).map fun r => (c :: r.1, r.2) := by
  have hesc := escaped_escape c
  generalize escape c = w at hesc ⊢
  cases hesc with
  | letter h => exact scanString_backslash (scanEscape_letter h t) n
  | itself hlow hhigh hquote hslash =>
    have hctl : ¬c.toNat < 32 := Nat.not_lt.mpr hlow
    simp [scanString, hquote, hslash, hctl]
  | unit h => exact scanString_backslash (scanEscape_bmp h t) n
  | pair h =>
    rw [List.cons_append, List.cons_append]
    exact scanString_backslash (scanEscape_pair h t) n

theorem scanString_flatMap (s : Text) : ∀ (n : Nat) (t : Text), s.length < n →
    scanString n (s.flatMap escape ++ '"' :: t) = some (s, t) := by
  induction s with
  | nil =>
    intro n t hn
    obtain ⟨n, rfl⟩ := Nat.exists_eq_add_one_of_ne_zero (Nat.ne_of_gt hn)
    rfl
  | cons c s ih =>
    intro n t hn
    obtain ⟨n, rfl⟩ := Nat.exists_eq_add_one_of_ne_zero (Nat.ne_of_gt (Nat.zero_lt_of_lt hn))
    rw [List.flatMap_cons, List.append_assoc, scanString_escape,
      ih n t (by simpa using hn)]
    rfl

theorem one_le_length_escape (c : Char) : 1 ≤ (escape c).length := by
  have hesc := escaped_escape c
  generalize escape c = w at hesc ⊢
  cases hesc <;> exact Nat.succ_le_succ (Nat.zero_le _)

theorem length_le_flatMap_escape (s : Text) : s.length ≤ (s.flatMap escape).length := by
  induction s with
  | nil => exact Nat.le_refl 0
  | cons c s ih =>
    have hc := one_le_length_escape c
    rw [List.flatMap_cons, List.length_append, List.length_cons]
    omega

/-! ## Numbers -/

/-- What follows a value in a text that `dumps` wrote. -/
def Ends (t : Text) : Prop := ∀ c u, t = c :: u → c = ',' ∨ c = ']' ∨ c = '}'

theorem ends_cons {c : Char} {t : Text} (h : c = ',' ∨ c = ']' ∨ c = '}') : Ends (c :: t) := by
  intro d u hd
  rw [← (List.cons.inj hd).1]
  exact h

section Ends

variable {t : Text} (ht : Ends t)
include ht

theorem Ends.takeWhile (u : Text) : (u ++ t).takeWhile isDigit = u.takeWhile isDigit := by
  induction u with
  | nil =>
    cases t with
    | nil => rfl
    | cons c t => rcases ht c t rfl with rfl | rfl | rfl <;> rfl
  | cons c u ih =>
    rw [List.cons_append, List.takeWhile_cons, List.takeWhile_cons, ih]

theorem Ends.dropWhile (u : Text) : (u ++ t).dropWhile isDigit = u.dropWhile isDigit ++ t := by
  induction u with
  | nil =>
    cases t with
    | nil => rfl
    | cons c t => rcases ht c t rfl with rfl | rfl | rfl <;> rfl
  | cons c u ih =>
    rw [List.cons_append, List.dropWhile_cons, List.dropWhile_cons, ih]
    split <;> rfl

theorem Ends.scanFraction (u : Text) :
    scanFraction (u ++ t) = ((scanFraction u).1, (scanFraction u).2 ++ t) := by
  cases u with
  | nil =>
    cases t with
    | nil => rfl
    | cons c t => rcases ht c t rfl with rfl | rfl | rfl <;> rfl
  | cons c u =>
    by_cases hc : c = '.'
    · subst hc
      simp only [List.cons_append, Json.scanFraction, ht.takeWhile, ht.dropWhile]
      split <;> rfl
    · simp [Json.scanFraction, hc]

theorem Ends.scanExponent (u : Text) :
    scanExponent (u ++ t) = ((scanExponent u).1, (scanExponent u).2 ++ t) := by
  cases u with
  | nil =>
    cases t with
    | nil => rfl
    | cons c t => rcases ht c t rfl with rfl | rfl | rfl <;> rfl
  | cons e u =>
    by_cases he : e = 'e' ∨ e = 'E'
    · have hsign : ((u ++ t).take 1).filter (fun c => c == '-' || c == '+') =
          (u.take 1).filter fun c => c == '-' || c == '+' := by
        cases u with
        | nil =>
          cases t with
          | nil => rfl
          | cons c t => rcases ht c t rfl with rfl | rfl | rfl <;> rfl
        | cons c u => rfl
      have hdrop : (u ++ t).drop ((u.take 1).filter fun c => c == '-' || c == '+').length =
          u.drop ((u.take 1).filter fun c => c == '-' || c == '+').length ++ t := by
        apply List.drop_append_of_le_length
        refine le_trans (List.length_filter_le _ _) ?_
        rw [List.length_take]
        exact min_le_right _ _
      simp only [List.cons_append, Json.scanExponent, if_pos he, hsign, hdrop, ht.takeWhile,
        ht.dropWhile]
      split <;> rfl
    · simp only [List.cons_append, Json.scanExponent, if_neg he]

theorem Ends.scanInteger {u i r : Text} (h : scanInteger u = some (i, r)) :
    scanInteger (u ++ t) = some (i, r ++ t) := by
  cases u with
  | nil => cases h
  | cons c u =>
    have hsign : ((c :: u ++ t).take 1).filter (fun c => c == '-') =
        ((c :: u).take 1).filter fun c => c == '-' := rfl
    have hdrop : (c :: u ++ t).drop (((c :: u).take 1).filter fun c => c == '-').length =
        (c :: u).drop (((c :: u).take 1).filter fun c => c == '-').length ++ t := by
      apply List.drop_append_of_le_length
      refine le_trans (List.length_filter_le _ _) ?_
      rw [List.length_take]
      exact min_le_right _ _
    simp only [Json.scanInteger, hsign, hdrop] at h ⊢
    generalize ((c :: u).take 1).filter (fun c => c == '-') = sign at h ⊢
    generalize (c :: u).drop sign.length = v at h ⊢
    cases v with
    | nil => cases h
    | cons d v =>
      by_cases hd : d = '0'
      · subst hd
        cases h
        rfl
      · split at h
        next heq => exact absurd (List.cons.inj heq).1 hd
        next =>
          split
          next heq => exact absurd (List.cons.inj heq).1 hd
          next =>
            rw [ht.takeWhile, ht.dropWhile]
            split at h
            · cases h
            · cases h
              simp_all

/-- A number is read up to where the value ends. -/
theorem Ends.scanNumber {u i r : Text} (h : scanNumber u = some (i, r)) :
    scanNumber (u ++ t) = some (i, r ++ t) := by
  simp only [Json.scanNumber] at h ⊢
  cases hi : Json.scanInteger u with
  | none =>
    rw [hi] at h
    cases h
  | some x =>
    obtain ⟨j, v⟩ := x
    rw [hi] at h
    cases h
    rw [ht.scanInteger hi]
    simp only [ht.scanFraction, ht.scanExponent]

end Ends

/-- A JSON number, as the grammar has it. -/
def IsNumber (lit : Text) : Prop := scanNumber lit = some (lit, [])

theorem head_of_takeWhile {u : Text} (h : ¬(u.takeWhile isDigit).isEmpty = true) :
    ∃ c v, u = c :: v ∧ isDigit c = true := by
  cases u with
  | nil => exact absurd rfl h
  | cons c v =>
    refine ⟨c, v, rfl, ?_⟩
    by_contra hc
    rw [List.takeWhile_cons_of_neg hc] at h
    exact h rfl

/-- The first characters of a number. -/
theorem scanInteger_head {u i r : Text} (h : scanInteger u = some (i, r)) :
    ∃ c v, u = c :: v ∧ (isDigit c = true ∨ (c = '-' ∧ ∃ d w, v = d :: w ∧ isDigit d = true)) := by
  have hunsigned : ∀ {sign v : Text}, (match v with
      | '0' :: u => some (sign ++ ['0'], u)
      | u => if (u.takeWhile isDigit).isEmpty then none
          else some (sign ++ u.takeWhile isDigit, u.dropWhile isDigit)) = some (i, r) →
      ∃ d w, v = d :: w ∧ isDigit d = true := by
    intro sign v h
    split at h
    · exact ⟨'0', _, rfl, rfl⟩
    · split at h
      · cases h
      · next hne => exact head_of_takeWhile hne
  cases u with
  | nil => cases h
  | cons c u =>
    refine ⟨c, u, rfl, ?_⟩
    by_cases hc : c = '-'
    · subst hc
      exact .inr ⟨rfl, hunsigned h⟩
    · have hsign : ((c :: u).take 1).filter (fun c => c == '-') = [] := by simp [hc]
      simp only [scanInteger, hsign] at h
      obtain ⟨d, w, heq, hd⟩ := hunsigned h
      rw [(List.cons.inj heq).1]
      exact .inl hd

theorem IsNumber.head {lit : Text} (h : IsNumber lit) :
    ∃ c v, lit = c :: v ∧ (isDigit c = true ∨ (c = '-' ∧ ∃ d w, v = d :: w ∧ isDigit d = true)) := by
  cases hi : scanInteger lit with
  | none =>
    rw [IsNumber, scanNumber, hi] at h
    cases h
  | some x => exact scanInteger_head hi

/-- A digit is none of the characters that begin another value. -/
theorem ne_of_isDigit {c d : Char} (hc : isDigit c = true) (hd : isDigit d = false) : c ≠ d := by
  rintro rfl
  rw [hc] at hd
  cases hd

theorem scanLiteral_number {lit : Text} (h : IsNumber lit) (t : Text) :
    scanLiteral (lit ++ t) literals = none := by
  obtain ⟨c, v, rfl, hc | ⟨rfl, d, w, rfl, hd⟩⟩ := h.head
  · have hn := (ne_of_isDigit hc (d := 'n') rfl).symm
    have ht := (ne_of_isDigit hc (d := 't') rfl).symm
    have hf := (ne_of_isDigit hc (d := 'f') rfl).symm
    have hN := (ne_of_isDigit hc (d := 'N') rfl).symm
    have hI := (ne_of_isDigit hc (d := 'I') rfl).symm
    have hm := (ne_of_isDigit hc (d := '-') rfl).symm
    simp [scanLiteral, literals, hn, ht, hf, hN, hI, hm]
  · have hI := (ne_of_isDigit hd (d := 'I') rfl).symm
    simp [scanLiteral, literals, hI]

theorem scanValue_number {lit t : Text} (h : IsNumber lit) (ht : Ends t) (n : Nat) :
    scanValue (n + 1) (lit ++ t) = some (num lit, t) := by
  have hscan := ht.scanNumber h
  have hlit := scanLiteral_number h t
  obtain ⟨c, v, rfl, hc⟩ := h.head
  have hne : c ≠ '"' ∧ c ≠ '[' ∧ c ≠ '{' := by
    rcases hc with hc | ⟨rfl, -⟩
    · exact ⟨ne_of_isDigit hc rfl, ne_of_isDigit hc rfl, ne_of_isDigit hc rfl⟩
    · decide
  rw [List.cons_append] at hscan hlit ⊢
  rw [scanValue, hlit, hscan]
  · rfl
  · intro u hu
    exact hne.1 (List.cons.inj hu).1
  · intro u hu
    exact hne.2.1 (List.cons.inj hu).1
  · intro u hu
    exact hne.2.2 (List.cons.inj hu).1

/-! ## The round trip of values -/

mutual
/-- Every number is written as one, and no object has a key twice. -/
def Plain : Json → Prop
  | num lit => IsNumber lit
  | arr xs => PlainElems xs
  | obj ms => (ms.map Prod.fst).Nodup ∧ PlainMembers ms
  | _ => True

def PlainElems : List Json → Prop
  | [] => True
  | x :: xs => Plain x ∧ PlainElems xs

def PlainMembers : List (Text × Json) → Prop
  | [] => True
  | m :: ms => Plain m.2 ∧ PlainMembers ms
end

theorem plainMembers_str (ms : List (Text × Text)) :
    PlainMembers (ms.map fun e => (e.1, str e.2)) := by
  induction ms with
  | nil => trivial
  | cons e ms ih => exact ⟨trivial, ih⟩

/-- The characters a value can begin with. -/
abbrev isHead (c : Char) : Prop := c ∈ ['n', 't', 'f', '"', '[', '{', '-'] ∨ isDigit c = true

theorem dumps_head {v : Json} (h : Plain v) : ∃ c t, dumps v = c :: t ∧ isHead c := by
  cases v with
  | null => exact ⟨'n', _, rfl, by decide⟩
  | bool b =>
    cases b with
    | true => exact ⟨'t', _, rfl, by decide⟩
    | false => exact ⟨'f', _, rfl, by decide⟩
  | num lit =>
    obtain ⟨c, v, rfl, hc⟩ := IsNumber.head h
    rcases hc with hc | ⟨rfl, -⟩
    · exact ⟨c, v, rfl, .inr hc⟩
    · exact ⟨'-', v, rfl, by decide⟩
  | str s => exact ⟨'"', _, rfl, by decide⟩
  | arr xs => exact ⟨'[', _, rfl, by decide⟩
  | obj ms => exact ⟨'{', _, rfl, by decide⟩

theorem isHead_facts {c : Char} (h : isHead c) : isWs c = false ∧ c ≠ ']' ∧ c ≠ '}' := by
  rcases h with h | h
  · simp only [List.mem_cons, List.not_mem_nil, or_false] at h
    rcases h with rfl | rfl | rfl | rfl | rfl | rfl | rfl <;> decide
  · refine ⟨?_, ne_of_isDigit h rfl, ne_of_isDigit h rfl⟩
    simp only [isWs, Bool.or_eq_false_iff, beq_eq_false_iff_ne]
    exact ⟨⟨⟨ne_of_isDigit h rfl, ne_of_isDigit h rfl⟩, ne_of_isDigit h rfl⟩, ne_of_isDigit h rfl⟩

theorem skipWs_cons {c : Char} (h : isWs c = false) (t : Text) : skipWs (c :: t) = c :: t := by
  simp [skipWs, h]

theorem skipWs_space (t : Text) : skipWs (' ' :: t) = skipWs t := rfl

theorem dumpsElems_head {x : Json} {xs : List Json} (h : Plain x) :
    ∃ c t, dumpsElems (x :: xs) = c :: t ∧ isHead c := by
  obtain ⟨c, t, ht, hc⟩ := dumps_head h
  cases xs with
  | nil => exact ⟨c, _, by rw [dumpsElems, ht]; rfl, hc⟩
  | cons y ys => exact ⟨c, _, by rw [dumpsElems, ht]; rfl, hc⟩

theorem dumpsMembers_head (m : Text × Json) (ms : List (Text × Json)) :
    ∃ t, dumpsMembers (m :: ms) = '"' :: t := by
  cases ms with
  | nil => exact ⟨_, rfl⟩
  | cons n ns => exact ⟨_, rfl⟩

/-- A key or a string value is read back from behind its opening quote. -/
theorem scanString_dumpsStr (s : Text) (n : Nat) (t : Text)
    (h : (dumpsStr s).length ≤ n + 1) :
    ∃ u, dumpsStr s ++ t = '"' :: u ∧ scanString n u = some (s, t) := by
  refine ⟨s.flatMap escape ++ '"' :: t, by simp [dumpsStr], scanString_flatMap s n t ?_⟩
  have hs := length_le_flatMap_escape s
  simp only [dumpsStr, List.cons_append, List.length_cons, List.length_append] at h
  simp only [List.length_nil] at h
  omega

/-- Reading one member leaves the decision to what follows its value. -/
theorem scanMembers_member {k : Text} {v : Json} {n : Nat} {w : Text} (hv : Plain v)
    (hk : (dumpsStr k).length ≤ n + 1) (hs : scanValue n (dumps v ++ w) = some (v, w)) :
    scanMembers (n + 1) (dumpsStr k ++ ':' :: ' ' :: dumps v ++ w) =
      match skipWs w with
      | '}' :: u => some ([(k, v)], u)
      | ',' :: u => (scanMembers n (skipWs u)).map fun r => ((k, v) :: r.1, r.2)
      | _ => none := by
  obtain ⟨c, x, hx, hc⟩ := dumps_head hv
  obtain ⟨hws, -, -⟩ := isHead_facts hc
  obtain ⟨u, hu, hscan⟩ := scanString_dumpsStr k n (':' :: ' ' :: dumps v ++ w) hk
  have hskip : skipWs (' ' :: (dumps v ++ w)) = dumps v ++ w := by
    rw [hx, List.cons_append, skipWs_space, skipWs_cons hws]
  rw [List.append_assoc, hu, scanMembers, hscan]
  simp only [List.cons_append, skipWs_cons (show isWs ':' = false by decide), hskip, hs]

/- The three statements are proved together, by recursion on the value.  The fuel
only has to exceed the length of the text, because every call consumes a
character before it passes the rest of its fuel on. -/
mutual
theorem scanValue_dumps : ∀ (v : Json), Plain v → ∀ (n : Nat) (t : Text), Ends t →
    (dumps v).length < n → scanValue n (dumps v ++ t) = some (v, t)
  | null, _, n, t, _, hn => by
    obtain ⟨n, rfl⟩ := Nat.exists_eq_add_one_of_ne_zero (Nat.ne_of_gt (Nat.zero_lt_of_lt hn))
    simp [dumps, scanValue, scanLiteral, literals]
  | bool true, _, n, t, _, hn => by
    obtain ⟨n, rfl⟩ := Nat.exists_eq_add_one_of_ne_zero (Nat.ne_of_gt (Nat.zero_lt_of_lt hn))
    simp [dumps, scanValue, scanLiteral, literals]
  | bool false, _, n, t, _, hn => by
    obtain ⟨n, rfl⟩ := Nat.exists_eq_add_one_of_ne_zero (Nat.ne_of_gt (Nat.zero_lt_of_lt hn))
    simp [dumps, scanValue, scanLiteral, literals]
  | num lit, h, n, t, ht, hn => by
    obtain ⟨n, rfl⟩ := Nat.exists_eq_add_one_of_ne_zero (Nat.ne_of_gt (Nat.zero_lt_of_lt hn))
    exact scanValue_number h ht n
  | str s, _, n, t, _, hn => by
    obtain ⟨n, rfl⟩ := Nat.exists_eq_add_one_of_ne_zero (Nat.ne_of_gt (Nat.zero_lt_of_lt hn))
    obtain ⟨u, hu, hs⟩ := scanString_dumpsStr s n t (Nat.le_of_lt_succ (Nat.lt_succ_of_lt hn))
    rw [dumps, hu, scanValue, hs]
    rfl
  | arr [], _, n, t, _, hn => by
    obtain ⟨n, rfl⟩ := Nat.exists_eq_add_one_of_ne_zero (Nat.ne_of_gt (Nat.zero_lt_of_lt hn))
    simp [dumps, dumpsElems, scanValue, skipWs, isWs]
  | arr (x :: xs), h, n, t, _, hn => by
    obtain ⟨n, rfl⟩ := Nat.exists_eq_add_one_of_ne_zero (Nat.ne_of_gt (Nat.zero_lt_of_lt hn))
    have hlen : (dumpsElems (x :: xs)).length < n := by simpa [dumps] using hn
    have ih := scanElems_dumps x xs h n t hlen
    obtain ⟨c, u, hu, hc⟩ := dumpsElems_head h.1
    obtain ⟨hws, hne, -⟩ := isHead_facts hc
    rw [hu] at ih
    rw [dumps, hu, List.cons_append, List.cons_append, scanValue, skipWs_cons hws]
    rw [List.cons_append] at ih
    split
    next heq => exact absurd (List.cons.inj heq).1 hne
    next => rw [ih]; rfl
  | obj [], _, n, t, _, hn => by
    obtain ⟨n, rfl⟩ := Nat.exists_eq_add_one_of_ne_zero (Nat.ne_of_gt (Nat.zero_lt_of_lt hn))
    simp [dumps, dumpsMembers, scanValue, skipWs, isWs]
  | obj (m :: ms), h, n, t, _, hn => by
    obtain ⟨n, rfl⟩ := Nat.exists_eq_add_one_of_ne_zero (Nat.ne_of_gt (Nat.zero_lt_of_lt hn))
    have hlen : (dumpsMembers (m :: ms)).length < n := by simpa [dumps] using hn
    have ih := scanMembers_dumps m ms h.2 n t hlen
    obtain ⟨u, hu⟩ := dumpsMembers_head m ms
    rw [hu] at ih
    rw [dumps, hu, List.cons_append, List.cons_append, scanValue, skipWs_cons (by decide)]
    rw [List.cons_append] at ih
    have hobj : Dict.ofPairs (m :: ms) = ⟨m :: ms, h.1⟩ := Dict.ofPairs_items ⟨m :: ms, h.1⟩
    split
    next heq => exact absurd (List.cons.inj heq).1 (by decide)
    next => rw [ih, Option.map_some, mkObj, hobj]

theorem scanElems_dumps : ∀ (x : Json) (xs : List Json), PlainElems (x :: xs) →
    ∀ (n : Nat) (t : Text), (dumpsElems (x :: xs)).length < n →
      scanElems n (dumpsElems (x :: xs) ++ t) = some (x :: xs, t)
  | x, [], h, n, t, hn => by
    obtain ⟨n, rfl⟩ := Nat.exists_eq_add_one_of_ne_zero (Nat.ne_of_gt (Nat.zero_lt_of_lt hn))
    have hlen : (dumps x).length < n := by
      simp only [dumpsElems, List.length_append, List.length_cons, List.length_nil] at hn
      omega
    rw [dumpsElems, List.append_assoc, List.singleton_append, scanElems,
      scanValue_dumps x h.1 n _ (ends_cons (by decide)) hlen]
    rfl
  | x, y :: ys, h, n, t, hn => by
    obtain ⟨n, rfl⟩ := Nat.exists_eq_add_one_of_ne_zero (Nat.ne_of_gt (Nat.zero_lt_of_lt hn))
    have hlens : (dumps x).length < n ∧ (dumpsElems (y :: ys)).length < n := by
      simp only [dumpsElems, List.length_append, List.length_cons] at hn
      omega
    have ih := scanElems_dumps y ys h.2 n t hlens.2
    obtain ⟨c, u, hu, hc⟩ := dumpsElems_head h.2.1
    obtain ⟨hws, -, -⟩ := isHead_facts hc
    have hskip : skipWs (' ' :: (dumpsElems (y :: ys) ++ t)) = dumpsElems (y :: ys) ++ t := by
      rw [hu, List.cons_append, skipWs_space, skipWs_cons hws]
    rw [dumpsElems, List.append_assoc, List.cons_append, scanElems,
      scanValue_dumps x h.1 n _ (ends_cons (by decide)) hlens.1]
    simp only [List.cons_append, skipWs_cons (show isWs ',' = false by decide), hskip, ih,
      Option.map_some]

theorem scanMembers_dumps : ∀ (m : Text × Json) (ms : List (Text × Json)),
    PlainMembers (m :: ms) → ∀ (n : Nat) (t : Text), (dumpsMembers (m :: ms)).length < n →
      scanMembers n (dumpsMembers (m :: ms) ++ t) = some (m :: ms, t)
  | (k, v), [], h, n, t, hn => by
    obtain ⟨n, rfl⟩ := Nat.exists_eq_add_one_of_ne_zero (Nat.ne_of_gt (Nat.zero_lt_of_lt hn))
    have hlens : (dumpsStr k).length ≤ n + 1 ∧ (dumps v).length < n := by
      simp only [dumpsMembers, List.length_append, List.length_cons, List.length_nil] at hn
      omega
    have ih := scanValue_dumps v h.1 n ('}' :: t) (ends_cons (by decide)) hlens.2
    rw [dumpsMembers, List.append_assoc, List.singleton_append,
      scanMembers_member h.1 hlens.1 ih, skipWs_cons (by decide)]
    rfl
  | (k, v), m :: ms, h, n, t, hn => by
    obtain ⟨n, rfl⟩ := Nat.exists_eq_add_one_of_ne_zero (Nat.ne_of_gt (Nat.zero_lt_of_lt hn))
    have hlens : (dumpsStr k).length ≤ n + 1 ∧ (dumps v).length < n ∧
        (dumpsMembers (m :: ms)).length < n := by
      simp only [dumpsMembers, List.length_append, List.length_cons] at hn
      omega
    have ih := scanValue_dumps v h.1 n (',' :: ' ' :: dumpsMembers (m :: ms) ++ t)
      (ends_cons (by decide)) hlens.2.1
    have ihs := scanMembers_dumps m ms h.2 n t hlens.2.2
    obtain ⟨u, hu⟩ := dumpsMembers_head m ms
    have hskip : skipWs (' ' :: (dumpsMembers (m :: ms) ++ t)) = dumpsMembers (m :: ms) ++ t := by
      rw [hu, List.cons_append, skipWs_space, skipWs_cons (by decide)]
    rw [dumpsMembers, List.append_assoc, scanMembers_member h.1 hlens.1 ih]
    simp only [List.cons_append, skipWs_cons (show isWs ',' = false by decide), hskip, ihs,
      Option.map_some]
end

theorem loads_dumps {v : Json} (h : Plain v) : loads (dumps v) = some v := by
  obtain ⟨c, t, ht, hc⟩ := dumps_head h
  obtain ⟨hws, -, -⟩ := isHead_facts hc
  have hskip : skipWs (dumps v) = dumps v ++ [] := by
    rw [List.append_nil, ht, skipWs_cons hws]
  rw [loads, hskip, scanValue_dumps v h _ [] (fun _ _ h => by cases h) (Nat.lt_succ_self _)]
  rfl

theorem dumps_injective {v w : Json} (hv : Plain v) (hw : Plain w) (h : dumps v = dumps w) :
    v = w := by
  have hl := loads_dumps hv
  rw [h, loads_dumps hw] at hl
  exact (Option.some.inj hl).symm

/-! ## The characters of a text -/

/-- Not a control character. -/
abbrev Printable (c : Char) : Prop := 32 ≤ c.toNat

theorem printable_of_all {t : Text} (h : (t.all fun c => decide (Printable c)) = true) :
    ∀ x ∈ t, Printable x :=
  fun x hx => of_decide_eq_true (List.all_eq_true.mp h x hx)

theorem printable_hexDigit {d : Nat} (h : d < 16) : Printable (hexDigit d) := by
  interval_cases d <;> decide

theorem printable_hex4 (n : Nat) : ∀ x ∈ hex4 n, Printable x := by
  intro x hx
  simp only [hex4, List.mem_cons, List.not_mem_nil, or_false] at hx
  rcases hx with rfl | rfl | rfl | rfl <;> exact printable_hexDigit (Nat.mod_lt _ (by decide))

theorem printable_letter {c d : Char} (h : (c, d) ∈ letters) : ∀ x ∈ ['\\', d], Printable x := by
  have hall : (letters.all fun m => decide (Printable m.2)) = true := by decide
  have hd : Printable d := of_decide_eq_true (List.all_eq_true.mp hall (c, d) h)
  intro x hx
  rcases List.mem_cons.mp hx with rfl | hx
  · decide
  · rw [List.mem_singleton.mp hx]
    exact hd

theorem printable_escape (c : Char) : ∀ x ∈ escape c, Printable x := by
  have hu : ∀ n, ∀ x ∈ '\\' :: 'u' :: hex4 n, Printable x := by
    intro n x hx
    rcases List.mem_cons.mp hx with rfl | hx
    · decide
    · rcases List.mem_cons.mp hx with rfl | hx
      · decide
      · exact printable_hex4 n x hx
  have hesc := escaped_escape c
  generalize escape c = w at hesc ⊢
  cases hesc with
  | letter h => exact printable_letter h
  | itself hlow hhigh hquote hslash =>
    intro x hx
    rw [List.mem_singleton.mp hx]
    exact hlow
  | unit h => exact hu _
  | pair h =>
    intro x hx
    rcases List.mem_append.mp hx with hx | hx
    · exact hu _ x hx
    · exact hu _ x hx

theorem printable_dumpsStr (s : Text) : ∀ x ∈ dumpsStr s, Printable x := by
  intro x hx
  simp only [dumpsStr, List.cons_append, List.mem_cons, List.mem_append, List.mem_flatMap,
    List.not_mem_nil, or_false] at hx
  rcases hx with rfl | ⟨c, -, hx⟩ | rfl
  · decide
  · exact printable_escape c x hx
  · decide

theorem printable_append {t u : Text} (ht : ∀ x ∈ t, Printable x) (hu : ∀ x ∈ u, Printable x) :
    ∀ x ∈ t ++ u, Printable x :=
  fun x hx => (List.mem_append.mp hx).elim (ht x) (hu x)

theorem printable_cons {c : Char} {t : Text} (hc : Printable c) (ht : ∀ x ∈ t, Printable x) :
    ∀ x ∈ c :: t, Printable x :=
  printable_append (t := [c]) (fun _ hx => List.mem_singleton.mp hx ▸ hc) ht

theorem printable_takeWhile (u : Text) : ∀ x ∈ u.takeWhile isDigit, Printable x := by
  intro x hx
  have hdigit : isDigit x = true := List.mem_takeWhile_imp hx
  have h : 48 ≤ x.toNat ∧ x.toNat < 58 := of_decide_eq_true hdigit
  show 32 ≤ x.toNat
  omega

theorem printable_scanFraction (u : Text) : ∀ x ∈ (scanFraction u).1, Printable x := by
  unfold scanFraction
  split
  · split
    · exact fun x hx => absurd hx List.not_mem_nil
    · exact printable_cons (by decide) (printable_takeWhile _)
  · exact fun x hx => absurd hx List.not_mem_nil

theorem printable_filter (u : Text) {p : Char → Bool} (hp : ∀ x, p x = true → Printable x) :
    ∀ x ∈ u.filter p, Printable x :=
  fun x hx => hp x (List.mem_filter.mp hx).2

theorem printable_scanExponent (u : Text) : ∀ x ∈ (scanExponent u).1, Printable x := by
  unfold scanExponent
  split
  · split
    next he =>
      dsimp only
      split
      · exact fun x hx => absurd hx List.not_mem_nil
      · refine printable_append (printable_cons ?_ (printable_filter _ ?_)) (printable_takeWhile _)
        · rcases he with rfl | rfl <;> decide
        · intro x hx
          rcases Bool.or_eq_true_iff.mp hx with hx | hx
          · rw [eq_of_beq hx]; decide
          · rw [eq_of_beq hx]; decide
    next => exact fun x hx => absurd hx List.not_mem_nil
  · exact fun x hx => absurd hx List.not_mem_nil

theorem printable_scanInteger {u i r : Text} (h : scanInteger u = some (i, r)) :
    ∀ x ∈ i, Printable x := by
  have hsign : ∀ x ∈ (u.take 1).filter (fun c => c == '-'), Printable x :=
    printable_filter _ fun x hx => by rw [eq_of_beq hx]; decide
  simp only [scanInteger] at h
  split at h
  · cases h
    exact printable_append hsign (printable_of_all (by decide))
  · split at h
    · cases h
    · cases h
      exact printable_append hsign (printable_takeWhile _)

theorem printable_number {lit : Text} (h : IsNumber lit) : ∀ x ∈ lit, Printable x := by
  rw [IsNumber, scanNumber] at h
  cases hi : scanInteger lit with
  | none =>
    rw [hi] at h
    cases h
  | some x =>
    obtain ⟨i, r⟩ := x
    rw [hi] at h
    have hlit := (Prod.mk.inj (Option.some.inj h)).1
    rw [← hlit]
    exact printable_append (printable_append (printable_scanInteger hi) (printable_scanFraction r))
      (printable_scanExponent _)

mutual
/-- A text that was written has no control characters. -/
theorem printable_dumps : ∀ v : Json, Plain v → ∀ x ∈ dumps v, Printable x
  | null, _ => printable_of_all (by decide)
  | bool true, _ => printable_of_all (by decide)
  | bool false, _ => printable_of_all (by decide)
  | num _, h => printable_number h
  | str s, _ => printable_dumpsStr s
  | arr xs, h => printable_cons (by decide) (printable_dumpsElems xs h)
  | obj ms, h => printable_cons (by decide) (printable_dumpsMembers ms h.2)

theorem printable_dumpsElems : ∀ xs : List Json, PlainElems xs → ∀ x ∈ dumpsElems xs, Printable x
  | [], _ => printable_of_all (by decide)
  | [x], h => printable_append (printable_dumps x h.1) (printable_of_all (by decide))
  | x :: y :: xs, h => printable_append (printable_dumps x h.1)
      (printable_cons (by decide) (printable_cons (by decide) (printable_dumpsElems (y :: xs) h.2)))

theorem printable_dumpsMembers : ∀ ms : List (Text × Json), PlainMembers ms →
    ∀ x ∈ dumpsMembers ms, Printable x
  | [], _ => printable_of_all (by decide)
  | [m], h => printable_append (printable_append (printable_dumpsStr m.1)
      (printable_cons (by decide) (printable_cons (by decide) (printable_dumps m.2 h.1))))
      (printable_of_all (by decide))
  | m :: n :: ms, h => printable_append (printable_append (printable_dumpsStr m.1)
      (printable_cons (by decide) (printable_cons (by decide) (printable_dumps m.2 h.1))))
      (printable_cons (by decide)
        (printable_cons (by decide) (printable_dumpsMembers (n :: ms) h.2)))
end

end Json

end Codec
