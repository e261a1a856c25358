/-
How `json.dumps` writes a value.

The blanks behind the separators are a parameter.  The text is a JSON text if every
float of the value is finite.  Otherwise a capital of `NaN` or `Infinity` stands outside
of its strings, which no JSON text allows.
-/
import AdaptiveGateway.Codec.Rfc8259
import AdaptiveGateway.Python.Locations

namespace Python

open Codec Numeric Codec.Rfc8259

namespace Value

/-! ## Writing -/

/-- A code point inside a string literal. -/
def escape (p : CodePoint) : Text :=
  let n := p.val
  if n = 0x22 then ['\\', '"']
  else if n = 0x5c then ['\\', '\\']
  else if n = 0x0a then ['\\', 'n']
  else if n = 0x0d then ['\\', 'r']
  else if n = 0x09 then ['\\', 't']
  else if n = 0x08 then ['\\', 'b']
  else if n = 0x0c then ['\\', 'f']
  else if 32 ≤ n ∧ n < 127 then [Char.ofNat n]
  else if n < 0x10000 then '\\' :: 'u' :: Json.hex4 n
  else
    let v := n - 0x10000
    '\\' :: 'u' :: Json.hex4 (0xd800 + v / 1024) ++ '\\' :: 'u' :: Json.hex4 (0xdc00 + v % 1024)

/-- The escapes of a single letter. -/
def letters : List (Nat × Char) :=
  [(0x22, '"'), (0x5c, '\\'), (0x0a, 'n'), (0x0d, 'r'), (0x09, 't'), (0x08, 'b'), (0x0c, 'f')]

/-- The four ways to write a code point. -/
inductive Escaped (p : CodePoint) : Text → Prop
  | letter {c : Char} (h : (p.val, c) ∈ letters) : Escaped p ['\\', c]
  | itself (hlow : 32 ≤ p.val) (hhigh : p.val < 127) (hquote : p.val ≠ 0x22)
      (hslash : p.val ≠ 0x5c) : Escaped p [Char.ofNat p.val]
  | unit (h : p.val < 0x10000) : Escaped p ('\\' :: 'u' :: Json.hex4 p.val)
  | pair (h : 0x10000 ≤ p.val) :
      Escaped p ('\\' :: 'u' :: Json.hex4 (0xd800 + (p.val - 0x10000) / 1024) ++
        '\\' :: 'u' :: Json.hex4 (0xdc00 + (p.val - 0x10000) % 1024))

theorem escaped_letter {p : CodePoint} {n : Nat} {c : Char} {t : Text} (hmem : (n, c) ∈ letters)
    (h : p.val ≠ n → Escaped p t) : Escaped p (if p.val = n then ['\\', c] else t) := by
  by_cases hn : p.val = n
  · rw [if_pos hn]
    exact .letter (hn ▸ hmem)
  · rw [if_neg hn]
    exact h hn

theorem escaped_escape (p : CodePoint) : Escaped p (escape p) := by
  refine escaped_letter (by decide) fun hquote => escaped_letter (by decide) fun hslash => ?_
  refine escaped_letter (by decide) fun _ => escaped_letter (by decide) fun _ => ?_
  refine escaped_letter (by decide) fun _ => escaped_letter (by decide) fun _ => ?_
  refine escaped_letter (by decide) fun _ => ?_
  by_cases hascii : 32 ≤ p.val ∧ p.val < 127
  · rw [if_pos hascii]
    exact .itself hascii.1 hascii.2 hquote hslash
  · rw [if_neg hascii]
    by_cases hbasic : p.val < 0x10000
    · rw [if_pos hbasic]
      exact .unit hbasic
    · rw [if_neg hbasic]
      exact .pair (Nat.le_of_not_lt hbasic)

/-- A character that is written as itself has the number of the code point. -/
theorem toNat_ofNat_ascii {n : Nat} (h : n < 127) : (Char.ofNat n).toNat = n := by
  rw [Char.ofNat, dif_pos (Or.inl (by omega))]
  rfl

theorem ofNat_ne {n : Nat} {c : Char} (h : n < 127) (hne : n ≠ c.toNat) : Char.ofNat n ≠ c := by
  intro hc
  apply hne
  rw [← hc, toNat_ofNat_ascii h]

def dumpsStr (s : Str) : Text := '"' :: (s.flatMap escape ++ ['"'])

section

variable (repr : Binary64 → Text) (gap : Text)

def floatText : Binary64 → Text
  | .nan => ['N', 'a', 'N']
  | .inf false => ['I', 'n', 'f', 'i', 'n', 'i', 't', 'y']
  | .inf true => ['-', 'I', 'n', 'f', 'i', 'n', 'i', 't', 'y']
  | x => repr x

mutual
/-- `json.dumps`, with the separators `"," + gap` and `":" + gap`. -/
def dumps : Value → Text
  | .null => ['n', 'u', 'l', 'l']
  | .bool true => ['t', 'r', 'u', 'e']
  | .bool false => ['f', 'a', 'l', 's', 'e']
  | .int n => intText n
  | .float x => floatText repr x
  | .negZero => ['-', '0', '.', '0']
  | .str s => dumpsStr s
  | .list xs => '[' :: (dumpsElems xs ++ [']'])
  | .dict ms => '{' :: (dumpsMembers ms ++ ['}'])

def dumpsElems : List Value → Text
  | [] => []
  | [x] => dumps x
  | x :: y :: xs => dumps x ++ ',' :: (gap ++ dumpsElems (y :: xs))

def dumpsMembers : List (Str × Value) → Text
  | [] => []
  | [m] => dumpsStr m.1 ++ ':' :: (gap ++ dumps m.2)
  | m :: n :: ms =>
    dumpsStr m.1 ++ ':' :: (gap ++ (dumps m.2 ++ ',' :: (gap ++ dumpsMembers (n :: ms))))
end

end

/-! ## Finite values -/

mutual
/-- Every float in the value is finite. -/
def finite : Value → Bool
  | .float x => x.isFinite
  | .list xs => finiteElems xs
  | .dict ms => finiteMembers ms
  | _ => true

def finiteElems : List Value → Bool
  | [] => true
  | x :: xs => finite x && finiteElems xs

def finiteMembers : List (Str × Value) → Bool
  | [] => true
  | m :: ms => finite m.2 && finiteMembers ms
end

theorem finiteElems_iff {xs : List Value} : finiteElems xs = true ↔ ∀ x ∈ xs, finite x = true := by
  induction xs with
  | nil => simp [finiteElems]
  | cons x xs ih => simp [finiteElems, ih]

theorem finiteMembers_iff {ms : List (Str × Value)} :
    finiteMembers ms = true ↔ ∀ m ∈ ms, finite m.2 = true := by
  induction ms with
  | nil => simp [finiteMembers]
  | cons m ms ih => simp [finiteMembers, ih]

theorem finite_get {v w : Value} {path : List Step} (h : finite v = true)
    (hget : get path v = some w) : finite w = true := by
  induction path generalizing v with
  | nil =>
    cases hget
    exact h
  | cons step path ih =>
    cases step with
    | key name =>
      cases v with
      | dict ms =>
        rw [get] at hget
        obtain ⟨x, hx, hget⟩ := Option.bind_eq_some_iff.mp hget
        exact ih (finiteMembers_iff.mp h _ (Dict.mem_of_lookup hx)) hget
      | _ => cases hget
    | index i =>
      cases v with
      | list xs =>
        rw [get] at hget
        obtain ⟨x, hx, hget⟩ := Option.bind_eq_some_iff.mp hget
        exact ih (finiteElems_iff.mp h _ (List.mem_of_getElem? hx)) hget
      | _ => cases hget

mutual
theorem finite_of_get : ∀ v, Keyed v →
    (∀ path x, get path v = some (.float x) → x.isFinite = true) → finite v = true
  | .float x, _, h => h [] x rfl
  | .list xs, hv, h => by
    refine finiteElems_of_get xs hv fun y hy path x hx => ?_
    obtain ⟨i, hi⟩ := List.mem_iff_getElem?.mp hy
    exact h (.index i :: path) x (by rw [get, hi]; exact hx)
  | .dict ms, hv, h => by
    refine finiteMembers_of_get ms hv.2 fun m hm path x hx => ?_
    exact h (.key m.1 :: path) x (by rw [get, lookup_of_mem hv.1 hm]; exact hx)
  | .null, _, _ | .bool _, _, _ | .int _, _, _ | .negZero, _, _ | .str _, _, _ => rfl

theorem finiteElems_of_get : ∀ ys, KeyedElems ys →
    (∀ y ∈ ys, ∀ path x, get path y = some (.float x) → x.isFinite = true) → finiteElems ys = true
  | [], _, _ => rfl
  | y :: ys, hys, h => by
    rw [finiteElems, finite_of_get y hys.1 (h y List.mem_cons_self),
      finiteElems_of_get ys hys.2 fun z hz => h z (List.mem_cons_of_mem y hz)]
    rfl

theorem finiteMembers_of_get : ∀ ms, KeyedMembers ms →
    (∀ m ∈ ms, ∀ path x, get path m.2 = some (.float x) → x.isFinite = true) →
      finiteMembers ms = true
  | [], _, _ => rfl
  | m :: ms, hms, h => by
    rw [finiteMembers, finite_of_get m.2 hms.1 (h m List.mem_cons_self),
      finiteMembers_of_get ms hms.2 fun n hn => h n (List.mem_cons_of_mem m hn)]
    rfl
end

/-- A value is finite if it holds a finite float at every location with a float. -/
theorem finite_iff {v : Value} (hv : Keyed v) : finite v = true ↔
    ∀ path x, get path v = some (.float x) → x.isFinite = true :=
  ⟨fun h _ _ hget => finite_get h hget, finite_of_get v hv⟩

/-! ## Strings -/

theorem isHex_hex4 (n : Nat) : ∀ c ∈ Json.hex4 n, isHex c = true := by
  have hdigit : ∀ d, isHex (Json.hexDigit (d % 16)) = true := by
    intro d
    rw [isHex, Json.hexVal_hexDigit (Nat.mod_lt d (by decide))]
    rfl
  simp [Json.hex4, hdigit]

theorem chars_hex4 (n : Nat) {t : Text} (ht : Chars t) :
    Chars ('\\' :: 'u' :: (Json.hex4 n ++ t)) :=
  Chars.unicode rfl (isHex_hex4 n) ht

theorem chars_escape (p : CodePoint) {t : Text} (ht : Chars t) : Chars (escape p ++ t) := by
  have hescape := escaped_escape p
  generalize escape p = u at hescape ⊢
  cases hescape with
  | @letter c h =>
    have hletter : ∀ e ∈ letters, e.2 ∈ ['"', '\\', '/', 'b', 'f', 'n', 'r', 't'] := by decide
    exact .escaped (hletter _ h) ht
  | itself hlow hhigh hquote hslash =>
    have hn := toNat_ofNat_ascii hhigh
    exact .unescaped (by omega) (ofNat_ne hhigh hquote) (ofNat_ne hhigh hslash) ht
  | unit h => exact chars_hex4 p.val ht
  | pair h =>
    rw [List.append_assoc]
    exact chars_hex4 _ (chars_hex4 _ ht)

theorem quoted_dumpsStr (s : Str) : Quoted (dumpsStr s) := by
  refine ⟨s.flatMap escape, ?_, rfl⟩
  induction s with
  | nil => exact .nil
  | cons p s ih =>
    rw [List.flatMap_cons]
    exact chars_escape p ih

/-! ## Finite values are JSON texts -/

theorem isNumber_negZero : Json.IsNumber ['-', '0', '.', '0'] := rfl

section

variable {repr : Binary64 → Text} (hrepr : ∀ x, x.isFinite = true → Json.IsNumber (repr x))

include hrepr

theorem number_floatText {x : Binary64} (hx : x.isFinite = true) : Number (floatText repr x) := by
  cases x with
  | fin q h h' => exact number_of_isNumber (hrepr _ rfl)
  | nan => cases hx
  | inf n => cases hx

end

theorem elements_padded {w t : Text} (hw : Ws w) (h : Elements t) : Elements (w ++ t) := by
  cases h with
  | one hw' hv hy =>
    rw [← List.append_assoc, ← List.append_assoc]
    exact .one (hw.append hw') hv hy
  | more hw' hv hy ht =>
    rw [← List.append_assoc, ← List.append_assoc, ← List.append_assoc]
    exact .more (hw.append hw') hv hy ht

theorem members_padded {w t : Text} (hw : Ws w) (h : Members t) : Members (w ++ t) := by
  cases h with
  | one hw' hk hx hx' hv hy =>
    rw [← List.append_assoc, ← List.append_assoc, ← List.append_assoc]
    exact .one (hw.append hw') hk hx hx' hv hy
  | more hw' hk hx hx' hv hy ht =>
    rw [← List.append_assoc, ← List.append_assoc, ← List.append_assoc, ← List.append_assoc]
    exact .more (hw.append hw') hk hx hx' hv hy ht

mutual
theorem dumps_value {repr : Binary64 → Text} {gap : Text}
    (hrepr : ∀ x, x.isFinite = true → Json.IsNumber (repr x)) (hgap : Ws gap) :
    ∀ v, finite v = true → Rfc8259.Value (dumps repr gap v)
  | .null, _ => .null
  | .bool true, _ => .true
  | .bool false, _ => .false
  | .int n, _ => .number (number_of_isNumber (Json.isNumber_intText n))
  | .float _, h => .number (number_floatText hrepr h)
  | .negZero, _ => .number (number_of_isNumber isNumber_negZero)
  | .str s, _ => .string (quoted_dumpsStr s)
  | .list [], _ => .emptyArray ws_nil
  | .list (x :: xs), h => .array (dumpsElems_elements hrepr hgap (x :: xs) (List.cons_ne_nil _ _) h)
  | .dict [], _ => .emptyObject ws_nil
  | .dict (m :: ms), h =>
    .object (dumpsMembers_members hrepr hgap (m :: ms) (List.cons_ne_nil _ _) h)

theorem dumpsElems_elements {repr : Binary64 → Text} {gap : Text}
    (hrepr : ∀ x, x.isFinite = true → Json.IsNumber (repr x)) (hgap : Ws gap) :
    ∀ xs, xs ≠ [] → finiteElems xs = true → Elements (dumpsElems repr gap xs)
  | [], hne, _ => absurd rfl hne
  | [x], _, h => by
    have hx := dumps_value hrepr hgap x (Bool.and_eq_true_iff.mp h).1
    have hone := Elements.one ws_nil hx ws_nil
    rwa [List.nil_append, List.append_nil] at hone
  | x :: y :: xs, _, h => by
    obtain ⟨hx, hxs⟩ := Bool.and_eq_true_iff.mp h
    have hmore := Elements.more ws_nil (dumps_value hrepr hgap x hx) ws_nil
      (elements_padded hgap (dumpsElems_elements hrepr hgap (y :: xs) (List.cons_ne_nil _ _) hxs))
    rwa [List.nil_append, List.append_nil] at hmore

theorem dumpsMembers_members {repr : Binary64 → Text} {gap : Text}
    (hrepr : ∀ x, x.isFinite = true → Json.IsNumber (repr x)) (hgap : Ws gap) :
    ∀ ms, ms ≠ [] → finiteMembers ms = true → Members (dumpsMembers repr gap ms)
  | [], hne, _ => absurd rfl hne
  | [m], _, h => by
    have hm := dumps_value hrepr hgap m.2 (Bool.and_eq_true_iff.mp h).1
    have hone := Members.one ws_nil (quoted_dumpsStr m.1) ws_nil hgap hm ws_nil
    rwa [List.nil_append, List.append_nil, List.append_nil] at hone
  | m :: n :: ms, _, h => by
    obtain ⟨hm, hms⟩ := Bool.and_eq_true_iff.mp h
    have hmore := Members.more ws_nil (quoted_dumpsStr m.1) ws_nil hgap
      (dumps_value hrepr hgap m.2 hm) ws_nil
      (members_padded hgap (dumpsMembers_members hrepr hgap (n :: ms) (List.cons_ne_nil _ _) hms))
    rw [List.nil_append, List.append_nil, List.append_nil] at hmore
    simpa [dumpsMembers] using hmore
end

/-! ## What a reader sees of a value -/

/-- The text is read through, and a capital is met unless the value is finite. -/
def Shows (t : Text) (finite : Bool) : Prop :=
  ∀ seen, t.foldl read (.plain, seen) = (.plain, seen || !finite)

theorem Shows.append {t u : Text} {a b : Bool} (ht : Shows t a) (hu : Shows u b) :
    Shows (t ++ u) (a && b) := by
  intro seen
  rw [List.foldl_append, ht, hu, Bool.not_and, Bool.or_assoc]

theorem shows_of_neutral {t : Text} (h : Neutral t) : Shows t true := by
  intro seen
  rw [h, Bool.not_true, Bool.or_false]

theorem Shows.cons {c : Char} {t : Text} {b : Bool} (hc : c ≠ '"' ∧ c ≠ 'N' ∧ c ≠ 'I')
    (ht : Shows t b) : Shows (c :: t) b := by
  have h := (shows_of_neutral (neutral_one hc)).append ht
  rwa [Bool.true_and] at h

theorem Shows.padded {w t : Text} {b : Bool} (hw : Ws w) (ht : Shows t b) : Shows (w ++ t) b := by
  have h := (shows_of_neutral hw.neutral).append ht
  rwa [Bool.true_and] at h

theorem shows_bracketed {a z : Char} {t : Text} {b : Bool} (ha : a ≠ '"' ∧ a ≠ 'N' ∧ a ≠ 'I')
    (hz : z ≠ '"' ∧ z ≠ 'N' ∧ z ≠ 'I') (ht : Shows t b) : Shows (a :: (t ++ [z])) b := by
  have h := ht.append (shows_of_neutral (neutral_one hz))
  rw [Bool.and_true] at h
  exact Shows.cons ha h

theorem shows_floatText {repr : Binary64 → Text}
    (hrepr : ∀ x, x.isFinite = true → Json.IsNumber (repr x)) (x : Binary64) :
    Shows (floatText repr x) x.isFinite := by
  cases x with
  | fin q h h' => exact shows_of_neutral (number_of_isNumber (hrepr _ rfl)).neutral
  | nan => intro seen; cases seen <;> rfl
  | inf n => intro seen; cases n <;> cases seen <;> rfl

mutual
theorem dumps_shows {repr : Binary64 → Text} {gap : Text}
    (hrepr : ∀ x, x.isFinite = true → Json.IsNumber (repr x)) (hgap : Ws gap) :
    ∀ v, Shows (dumps repr gap v) (finite v)
  | .null | .bool true | .bool false => shows_of_neutral (neutral_of_chars (by simp [dumps]))
  | .int n => shows_of_neutral (number_of_isNumber (Json.isNumber_intText n)).neutral
  | .float x => shows_floatText hrepr x
  | .negZero => shows_of_neutral (number_of_isNumber isNumber_negZero).neutral
  | .str s => shows_of_neutral (quoted_dumpsStr s).neutral
  | .list xs => shows_bracketed (by decide) (by decide) (dumpsElems_shows hrepr hgap xs)
  | .dict ms => shows_bracketed (by decide) (by decide) (dumpsMembers_shows hrepr hgap ms)

theorem dumpsElems_shows {repr : Binary64 → Text} {gap : Text}
    (hrepr : ∀ x, x.isFinite = true → Json.IsNumber (repr x)) (hgap : Ws gap) :
    ∀ xs, Shows (dumpsElems repr gap xs) (finiteElems xs)
  | [] => shows_of_neutral neutral_nil
  | [x] => by
    rw [finiteElems, finiteElems, Bool.and_true]
    exact dumps_shows hrepr hgap x
  | x :: y :: xs => by
    have hxs := (dumpsElems_shows hrepr hgap (y :: xs)).padded hgap
    rw [finiteElems]
    exact (dumps_shows hrepr hgap x).append (Shows.cons (by decide) hxs)

theorem dumpsMembers_shows {repr : Binary64 → Text} {gap : Text}
    (hrepr : ∀ x, x.isFinite = true → Json.IsNumber (repr x)) (hgap : Ws gap) :
    ∀ ms, Shows (dumpsMembers repr gap ms) (finiteMembers ms)
  | [] => shows_of_neutral neutral_nil
  | [m] => by
    have hkey := shows_of_neutral (quoted_dumpsStr m.1).neutral
    have hm := Shows.cons (c := ':') (by decide) ((dumps_shows hrepr hgap m.2).padded hgap)
    have h := hkey.append hm
    rw [Bool.true_and] at h
    rw [finiteMembers, finiteMembers, Bool.and_true]
    exact h
  | m :: n :: ms => by
    have hkey := shows_of_neutral (quoted_dumpsStr m.1).neutral
    have hms := Shows.cons (c := ',') (by decide)
      ((dumpsMembers_shows hrepr hgap (n :: ms)).padded hgap)
    have hm := Shows.cons (c := ':') (by decide)
      (((dumps_shows hrepr hgap m.2).append hms).padded hgap)
    have h := hkey.append hm
    rw [Bool.true_and] at h
    exact h
end

/-- A value is written as a JSON text exactly if its floats are finite. -/
theorem dumps_jsonText {repr : Binary64 → Text} {gap : Text}
    (hrepr : ∀ x, x.isFinite = true → Json.IsNumber (repr x)) (hgap : Ws gap) (v : Value) :
    JsonText (dumps repr gap v) ↔ finite v = true := by
  constructor
  · intro h
    have hneutral := h.neutral false
    rw [dumps_shows hrepr hgap v false] at hneutral
    simpa using hneutral
  · intro h
    exact ⟨[], dumps repr gap v, [], by simp, ws_nil, dumps_value hrepr hgap v h, ws_nil⟩

/-! ## Lines -/

/-- A character of ASCII that is no control character. -/
def isPrintable (c : Char) : Bool := decide (32 ≤ c.toNat ∧ c.toNat < 127)

theorem printable_of_numeral {t : Text} (h : t.all isNumeral = true) :
    t.all isPrintable = true := by
  have hothers : ['-', '+', '.', 'e', 'E'].all isPrintable = true := rfl
  refine List.all_eq_true.mpr fun c hc => ?_
  have hchar := List.all_eq_true.mp h c hc
  rw [isNumeral, Bool.or_eq_true, Json.isDigit, decide_eq_true_eq, decide_eq_true_eq] at hchar
  rcases hchar with hdigit | hother
  · exact decide_eq_true (by omega)
  · exact List.all_eq_true.mp hothers c hother

theorem printable_hex4 (n : Nat) : (Json.hex4 n).all isPrintable = true := by
  have hdigit : ∀ d, d < 16 → isPrintable (Json.hexDigit d) = true := by decide
  have hmod : ∀ d, isPrintable (Json.hexDigit (d % 16)) = true := fun d =>
    hdigit _ (Nat.mod_lt d (by decide))
  simp [Json.hex4, hmod]

theorem printable_unit (n : Nat) : ('\\' :: 'u' :: Json.hex4 n).all isPrintable = true := by
  rw [List.all_cons, List.all_cons, printable_hex4]
  rfl

theorem printable_escape (p : CodePoint) : (escape p).all isPrintable = true := by
  have hescape := escaped_escape p
  generalize escape p = u at hescape ⊢
  cases hescape with
  | @letter c h =>
    have hletter : ∀ e ∈ letters, ['\\', e.2].all isPrintable = true := by decide
    exact hletter _ h
  | itself hlow hhigh =>
    have hn := toNat_ofNat_ascii hhigh
    rw [List.all_cons, List.all_nil, Bool.and_true, isPrintable, hn]
    exact decide_eq_true ⟨hlow, hhigh⟩
  | unit => exact printable_unit _
  | pair =>
    rw [List.all_append, printable_unit, printable_unit]
    rfl

theorem printable_dumpsStr (s : Str) : (dumpsStr s).all isPrintable = true := by
  have hescaped : (s.flatMap escape).all isPrintable = true := by
    rw [List.all_flatMap]
    exact List.all_eq_true.mpr fun p _ => printable_escape p
  rw [dumpsStr, List.all_cons, List.all_append, hescaped]
  rfl

theorem printable_floatText {repr : Binary64 → Text}
    (hrepr : ∀ x, x.isFinite = true → Json.IsNumber (repr x)) (x : Binary64) :
    (floatText repr x).all isPrintable = true := by
  cases x with
  | fin q h h' => exact printable_of_numeral (number_of_isNumber (hrepr _ rfl)).numeral
  | nan => rfl
  | inf n => cases n <;> rfl

theorem all_of_printable {P : Char → Bool} (hP : ∀ c, isPrintable c = true → P c = true) {t : Text}
    (h : t.all isPrintable = true) : t.all P = true :=
  List.all_eq_true.mpr fun c hc => hP c (List.all_eq_true.mp h c hc)

mutual
/-- A value is written in printable characters and the blanks of the separators. -/
theorem dumps_all {repr : Binary64 → Text} {gap : Text} {P : Char → Bool}
    (hrepr : ∀ x, x.isFinite = true → Json.IsNumber (repr x))
    (hP : ∀ c, isPrintable c = true → P c = true) (hgap : gap.all P = true) :
    ∀ v, (dumps repr gap v).all P = true
  | .null | .bool true | .bool false | .negZero => all_of_printable hP rfl
  | .int n =>
    all_of_printable hP (printable_of_numeral (number_of_isNumber (Json.isNumber_intText n)).numeral)
  | .float x => all_of_printable hP (printable_floatText hrepr x)
  | .str s => all_of_printable hP (printable_dumpsStr s)
  | .list xs => by
    rw [dumps, List.all_cons, List.all_append, hP '[' rfl, dumpsElems_all hrepr hP hgap xs,
      List.all_cons, hP ']' rfl]
    rfl
  | .dict ms => by
    rw [dumps, List.all_cons, List.all_append, hP '{' rfl, dumpsMembers_all hrepr hP hgap ms,
      List.all_cons, hP '}' rfl]
    rfl

theorem dumpsElems_all {repr : Binary64 → Text} {gap : Text} {P : Char → Bool}
    (hrepr : ∀ x, x.isFinite = true → Json.IsNumber (repr x))
    (hP : ∀ c, isPrintable c = true → P c = true) (hgap : gap.all P = true) :
    ∀ xs, (dumpsElems repr gap xs).all P = true
  | [] => rfl
  | [x] => dumps_all hrepr hP hgap x
  | x :: y :: xs => by
    rw [dumpsElems, List.all_append, List.all_cons, List.all_append, hgap, hP ',' rfl,
      dumps_all hrepr hP hgap x, dumpsElems_all hrepr hP hgap (y :: xs)]
    rfl

theorem dumpsMembers_all {repr : Binary64 → Text} {gap : Text} {P : Char → Bool}
    (hrepr : ∀ x, x.isFinite = true → Json.IsNumber (repr x))
    (hP : ∀ c, isPrintable c = true → P c = true) (hgap : gap.all P = true) :
    ∀ ms, (dumpsMembers repr gap ms).all P = true
  | [] => rfl
  | [m] => by
    rw [dumpsMembers, List.all_append, List.all_cons, List.all_append, hgap, hP ':' rfl,
      all_of_printable hP (printable_dumpsStr m.1), dumps_all hrepr hP hgap m.2]
    rfl
  | m :: n :: ms => by
    rw [dumpsMembers, List.all_append, List.all_cons, List.all_append, List.all_append,
      List.all_cons, List.all_append, hgap, hP ':' rfl, hP ',' rfl,
      all_of_printable hP (printable_dumpsStr m.1), dumps_all hrepr hP hgap m.2,
      dumpsMembers_all hrepr hP hgap (n :: ms)]
    rfl
end

/-- A value is written in one line. -/
theorem dumps_printable {repr : Binary64 → Text} {gap : Text}
    (hrepr : ∀ x, x.isFinite = true → Json.IsNumber (repr x)) (hgap : gap.all isPrintable = true)
    (v : Value) : (dumps repr gap v).all isPrintable = true :=
  dumps_all hrepr (fun _ hc => hc) hgap v

end Value

end Python
