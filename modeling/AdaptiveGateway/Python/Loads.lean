/-
How `json.loads` reads a string.

The grammar is that of `Codec.Json`, but a string literal may hold unpaired surrogates, as
they are or as escapes, and a number is converted where it is met: `int` and `float` are
the conversions of literals with and without a fraction or an exponent, `none` for
`ValueError`.  The scanner goes over characters, among which there are no surrogates, so
one is put before it as a pair of characters that begins with U+0000.  That character
itself stands in no JSON text.

`loads_dumps` is the round trip of values without surrogates and infinite floats, and
what `loads` returns has distinct keys, whatever the text repeats.
-/
import AdaptiveGateway.Python.Dumps

namespace Python

open Codec Numeric Codec.Rfc8259

namespace Value

/-! ## Reading -/

/-- A code point before the scanner. -/
def mark (p : CodePoint) : Text :=
  if p.val = 0 then ['\x00', '\x00']
  else if 0xd800 ≤ p.val ∧ p.val < 0xe000 then ['\x00', Char.ofNat (p.val - 0xd7ff)]
  else [Char.ofNat p.val]

/-- The code point that is put as U+0000 and the next character. -/
def scanMarked : Text → Option (CodePoint × Text)
  | [] => none
  | c :: t => if c = '\x00' then none else some (codePoint (0xd7ff + c.toNat), t)

/-- The code point an escape behind its backslash stands for.  Two escapes that are a
surrogate pair stand for one. -/
def scanEscape : Text → Option (CodePoint × Text)
  | '"' :: t => some (.ofChar '"', t)
  | '\\' :: t => some (.ofChar '\\', t)
  | '/' :: t => some (.ofChar '/', t)
  | 'b' :: t => some (.ofChar '\x08', t)
  | 'f' :: t => some (.ofChar '\x0c', t)
  | 'n' :: t => some (.ofChar '\n', t)
  | 'r' :: t => some (.ofChar '\r', t)
  | 't' :: t => some (.ofChar '\t', t)
  | 'u' :: t =>
    match Json.scanHex4 t with
    | none => none
    | some (n, t) =>
      if 0xd800 ≤ n ∧ n < 0xdc00 then
        match t with
        | '\\' :: 'u' :: u =>
          match Json.scanHex4 u with
          | none => none
          | some (m, u) =>
            if 0xdc00 ≤ m ∧ m < 0xe000 then
              some (codePoint (0x10000 + (n - 0xd800) * 1024 + (m - 0xdc00)), u)
            else some (codePoint n, t)
        | _ => some (codePoint n, t)
      else some (codePoint n, t)
  | _ => none

/-- The rest of a string literal behind its quote. -/
def scanString : Nat → Text → Option (Str × Text)
  | 0, _ => none
  | _ + 1, [] => none
  | n + 1, c :: t =>
    if c = '"' then some ([], t)
    else if c = '\\' then
      match scanEscape t with
      | none => none
      | some (p, t) => (scanString n t).map fun r => (p :: r.1, r.2)
    else if c = '\x00' then
      match scanMarked t with
      | none => none
      | some (p, t) => (scanString n t).map fun r => (p :: r.1, r.2)
    else if c.toNat < 32 then none
    else (scanString n t).map fun r => (.ofChar c :: r.1, r.2)

def constants : List (Text × Value) :=
  [("null".toList, .null), ("true".toList, .bool true), ("false".toList, .bool false),
    ("NaN".toList, .float .nan), ("Infinity".toList, .float (.inf false)),
    ("-Infinity".toList, .float (.inf true))]

def scanConstant (t : Text) : List (Text × Value) → Option (Value × Text)
  | [] => none
  | l :: ls => if l.1.isPrefixOf t then some (l.2, t.drop l.1.length) else scanConstant t ls

section

variable (int : Text → Option ℤ) (float : Text → Option Binary64)

/-- `float(lit)`, where zero has the sign of the literal. -/
def signed (lit : Text) (x : Binary64) : Value :=
  if x = .zero ∧ lit.head? = some '-' then .negZero else .float x

def number (lit : Text) : Option Value :=
  if Json.isIntegral lit then (int lit).map .int else (float lit).map (signed lit)

def scanNumber (t : Text) : Option (Value × Text) :=
  match Json.scanNumber t with
  | none => none
  | some (lit, u) => (number int float lit).map fun v => (v, u)

mutual
/-- One value at the head of the text. -/
def scanValue : Nat → Text → Option (Value × Text)
  | 0, _ => none
  | n + 1, '"' :: t => (scanString n t).map fun r => (.str r.1, r.2)
  | n + 1, '[' :: t =>
    match Json.skipWs t with
    | ']' :: u => some (.list [], u)
    | u => (scanElems n u).map fun r => (.list r.1, r.2)
  | n + 1, '{' :: t =>
    match Json.skipWs t with
    | '}' :: u => some (.dict [], u)
    | u => (scanMembers n u).map fun r => (.dict (Dict.ofPairs r.1).items, r.2)
  | _ + 1, t =>
    match scanConstant t constants with
    | some r => some r
    | none => scanNumber int float t

/-- Array elements up to the closing bracket. -/
def scanElems : Nat → Text → Option (List Value × Text)
  | 0, _ => none
  | n + 1, t =>
    match scanValue n t with
    | none => none
    | some (x, t) =>
      match Json.skipWs t with
      | ']' :: u => some ([x], u)
      | ',' :: u => (scanElems n (Json.skipWs u)).map fun r => (x :: r.1, r.2)
      | _ => none

/-- Object members up to the closing brace. -/
def scanMembers : Nat → Text → Option (List (Str × Value) × Text)
  | 0, _ => none
  | n + 1, '"' :: t =>
    match scanString n t with
    | none => none
    | some (k, t) =>
      match Json.skipWs t with
      | ':' :: t =>
        match scanValue n (Json.skipWs t) with
        | none => none
        | some (v, t) =>
          match Json.skipWs t with
          | '}' :: u => some ([(k, v)], u)
          | ',' :: u => (scanMembers n (Json.skipWs u)).map fun r => ((k, v) :: r.1, r.2)
          | _ => none
      | _ => none
  | _ + 1, _ => none
end

def scan (t : Text) : Option Value :=
  match scanValue int float (t.length + 1) (Json.skipWs t) with
  | some (v, u) => if (Json.skipWs u).isEmpty then some v else none
  | none => none

/-- `json.loads`; `none` where it raises `ValueError`. -/
def loads (s : Str) : Option Value := scan int float (s.flatMap mark)

example : loads int float (.ofText "\"\\ud800\"".toList) = some (.str [codePoint 0xd800]) := rfl

end

/-! ## What is scanned -/

section

variable {int : Text → Option ℤ} {float : Text → Option Binary64}

/-- The value has no parts. -/
def Atomic : Value → Prop
  | .list _ | .dict _ => False
  | _ => True

theorem atomic_scanConstant {t u : Text} {v : Value}
    (h : scanConstant t constants = some (v, u)) : Atomic v := by
  have hmem : ∀ ls : List (Text × Value), scanConstant t ls = some (v, u) →
      v ∈ ls.map Prod.snd := by
    intro ls
    induction ls with
    | nil => simp [scanConstant]
    | cons l ls ih =>
      rw [scanConstant]
      split
      · intro hv
        cases hv
        exact List.mem_cons_self
      · exact fun hv => List.mem_cons_of_mem _ (ih hv)
  have hv := hmem constants h
  simp only [constants, List.map_cons, List.map_nil, List.mem_cons, List.not_mem_nil,
    or_false] at hv
  rcases hv with rfl | rfl | rfl | rfl | rfl | rfl <;> trivial

theorem atomic_scanNumber {t u : Text} {v : Value} (h : scanNumber int float t = some (v, u)) :
    Atomic v := by
  rw [scanNumber] at h
  split at h
  · cases h
  · obtain ⟨w, hw, hv⟩ := Option.map_eq_some_iff.mp h
    cases hv
    rw [number] at hw
    split at hw
    · obtain ⟨n, -, rfl⟩ := Option.map_eq_some_iff.mp hw
      trivial
    · obtain ⟨x, -, rfl⟩ := Option.map_eq_some_iff.mp hw
      rw [signed]
      split <;> trivial

theorem scanElems_cases {n : Nat} {t u : Text} {xs : List Value}
    (h : scanElems int float (n + 1) t = some (xs, u)) :
    ∃ x t', scanValue int float n t = some (x, t') ∧
      (xs = [x] ∨ ∃ t' ys, scanElems int float n t' = some (ys, u) ∧ xs = x :: ys) := by
  rw [scanElems] at h
  split at h
  next => cases h
  next x t' hscan =>
    refine ⟨x, t', hscan, ?_⟩
    split at h
    · cases h
      exact Or.inl rfl
    · obtain ⟨r, hrest, hr⟩ := Option.map_eq_some_iff.mp h
      cases hr
      exact Or.inr ⟨_, r.1, hrest, rfl⟩
    · cases h

theorem scanMembers_cases {n : Nat} {t u : Text} {ms : List (Str × Value)}
    (h : scanMembers int float (n + 1) t = some (ms, u)) :
    ∃ k v t' t'', scanValue int float n t' = some (v, t'') ∧
      (ms = [(k, v)] ∨ ∃ t' ls, scanMembers int float n t' = some (ls, u) ∧ ms = (k, v) :: ls) := by
  unfold scanMembers at h
  split at h
  next => cases h
  next hn =>
    cases Nat.succ.inj hn
    split at h
    next => cases h
    next k t hstring =>
      split at h
      · split at h
        next => cases h
        next v t'' hscan =>
          refine ⟨k, v, _, t'', hscan, ?_⟩
          split at h
          · cases h
            exact Or.inl rfl
          · obtain ⟨r, hrest, hr⟩ := Option.map_eq_some_iff.mp h
            cases hr
            exact Or.inr ⟨_, r.1, hrest, rfl⟩
          · cases h
      · cases h
  next => cases h

/-- What a value has been scanned from, one step back. -/
theorem scanValue_cases {n : Nat} {t u : Text} {v : Value}
    (h : scanValue int float (n + 1) t = some (v, u)) :
    Atomic v ∨
      (∃ xs, v = .list xs ∧ (xs = [] ∨ ∃ t', scanElems int float n t' = some (xs, u))) ∨
      ∃ ms, v = .dict (Dict.ofPairs ms).items ∧
        (ms = [] ∨ ∃ t', scanMembers int float n t' = some (ms, u)) := by
  unfold scanValue at h
  split at h
  next hn => cases hn
  next =>
    obtain ⟨r, -, hr⟩ := Option.map_eq_some_iff.mp h
    cases hr
    exact Or.inl trivial
  next hn =>
    cases Nat.succ.inj hn
    refine Or.inr (Or.inl ?_)
    split at h
    · cases h
      exact ⟨[], rfl, Or.inl rfl⟩
    · obtain ⟨r, hscan, hr⟩ := Option.map_eq_some_iff.mp h
      cases hr
      exact ⟨r.1, rfl, Or.inr ⟨_, hscan⟩⟩
  next hn =>
    cases Nat.succ.inj hn
    refine Or.inr (Or.inr ?_)
    split at h
    · cases h
      exact ⟨[], rfl, Or.inl rfl⟩
    · obtain ⟨r, hscan, hr⟩ := Option.map_eq_some_iff.mp h
      cases hr
      exact ⟨r.1, rfl, Or.inr ⟨_, hscan⟩⟩
  next =>
    left
    split at h
    next hconstant =>
      cases h
      exact atomic_scanConstant hconstant
    next => exact atomic_scanNumber h

/-! ## Keys -/

theorem mem_ofPairs {m : Str × Value} {ms : List (Str × Value)} (h : m ∈ (Dict.ofPairs ms).items) :
    m ∈ ms := by
  have hget : (Dict.ofPairs ms).get? m.1 = some m.2 := Dict.mem_items_iff.mp h
  rw [Dict.get?_ofPairs] at hget
  obtain ⟨e, he, hvalue⟩ := List.mem_map.mp (List.mem_of_getLast? hget)
  obtain ⟨he, hkey⟩ := List.mem_filter.mp he
  have hm : e = m := Prod.ext (of_decide_eq_true hkey) hvalue
  exact hm ▸ he

theorem Atomic.keyed {v : Value} (h : Atomic v) : Keyed v := by
  cases v with
  | list | dict => exact h.elim
  | _ => trivial

theorem keyed_scan (n : Nat) :
    (∀ t v u, scanValue int float n t = some (v, u) → Keyed v) ∧
    (∀ t xs u, scanElems int float n t = some (xs, u) → ∀ x ∈ xs, Keyed x) ∧
    (∀ t ms u, scanMembers int float n t = some (ms, u) → ∀ m ∈ ms, Keyed m.2) := by
  induction n with
  | zero => simp [scanValue, scanElems, scanMembers]
  | succ n ih =>
    obtain ⟨hvalue, helems, hmembers⟩ := ih
    refine ⟨fun t v u h => ?_, fun t xs u h => ?_, fun t ms u h => ?_⟩
    · obtain hatomic | ⟨xs, rfl, hxs⟩ | ⟨ms, rfl, hms⟩ := scanValue_cases h
      · exact hatomic.keyed
      · rw [Keyed, keyedElems_iff]
        obtain rfl | ⟨t', hscan⟩ := hxs
        · exact fun x hx => absurd hx List.not_mem_nil
        · exact helems t' xs u hscan
      · refine ⟨(Dict.ofPairs ms).nodup, keyedMembers_iff.mpr fun m hm => ?_⟩
        obtain rfl | ⟨t', hscan⟩ := hms
        · exact absurd (mem_ofPairs hm) List.not_mem_nil
        · exact hmembers t' ms u hscan m (mem_ofPairs hm)
    · obtain ⟨x, t', hscan, rfl | ⟨t'', ys, hrest, rfl⟩⟩ := scanElems_cases h
      · exact List.forall_mem_singleton.mpr (hvalue t x t' hscan)
      · exact List.forall_mem_cons.mpr ⟨hvalue t x t' hscan, helems t'' ys u hrest⟩
    · obtain ⟨k, x, t', t'', hscan, rfl | ⟨t₁, ls, hrest, rfl⟩⟩ := scanMembers_cases h
      · exact List.forall_mem_singleton.mpr (hvalue t' x t'' hscan)
      · exact List.forall_mem_cons.mpr ⟨hvalue t' x t'' hscan, hmembers t₁ ls u hrest⟩

theorem keyed_loads {s : Str} {v : Value} (h : loads int float s = some v) : Keyed v := by
  rw [loads, scan] at h
  split at h
  next w u hscan =>
    split at h
    · cases h
      exact (keyed_scan _).1 _ _ _ hscan
    · cases h
  next => cases h

end

/-! ## The round trip of strings -/

theorem mark_ofChar {c : Char} (h : c ≠ '\x00') : mark (.ofChar c) = [c] := by
  have hzero : c.toNat ≠ 0 := fun hc => h (Char.toNat_inj.mp hc)
  have hs := Json.toNat_not_surrogate c
  have hsurrogate : ¬(0xd800 ≤ c.toNat ∧ c.toNat < 0xe000) := by omega
  rw [mark, CodePoint.ofChar]
  simp only [if_neg hzero, if_neg hsurrogate, Char.ofNat_toNat]

/-- A text goes before the scanner as it is. -/
theorem flatMap_mark_ofText {t : Text} (h : '\x00' ∉ t) : (Str.ofText t).flatMap mark = t := by
  induction t with
  | nil => rfl
  | cons c t ih =>
    have hc : c ≠ '\x00' := fun hc => h (hc ▸ List.mem_cons_self)
    have ht := ih fun ht => h (List.mem_cons_of_mem c ht)
    rw [Str.ofText] at ht
    rw [Str.ofText, List.map_cons, List.flatMap_cons, mark_ofChar hc, ht]
    rfl

/-- No code point of the string is a surrogate. -/
def Scalar (s : Str) : Prop := ∀ p ∈ s, p.val < 0xd800 ∨ 0xdfff < p.val

theorem scalar_ofText (t : Text) : Scalar (Str.ofText t) := by
  intro p hp
  obtain ⟨c, -, rfl⟩ := List.mem_map.mp hp
  rcases Json.toNat_not_surrogate c with h | h
  · exact .inl h
  · exact .inr h.1

theorem scanEscape_unit {p : CodePoint} (hp : p.val < 0xd800 ∨ 0xdfff < p.val)
    (hbasic : p.val < 0x10000) (t : Text) :
    scanEscape ('u' :: (Json.hex4 p.val ++ t)) = some (p, t) := by
  have hhigh : ¬(0xd800 ≤ p.val ∧ p.val < 0xdc00) := by omega
  simp [scanEscape, Json.scanHex4_hex4 hbasic, hhigh, codePoint_val]

theorem scanEscape_surrogates {p : CodePoint} (hp : 0x10000 ≤ p.val) (t : Text) :
    scanEscape ('u' :: (Json.hex4 (0xd800 + (p.val - 0x10000) / 1024) ++
      '\\' :: 'u' :: (Json.hex4 (0xdc00 + (p.val - 0x10000) % 1024) ++ t))) = some (p, t) := by
  have hlt := p.isLt
  have hmod : (p.val - 0x10000) % 1024 < 1024 := Nat.mod_lt _ (by decide)
  have hdiv : (p.val - 0x10000) / 1024 < 1024 := by omega
  have hhigh : 0xd800 ≤ 0xd800 + (p.val - 0x10000) / 1024 ∧
      0xd800 + (p.val - 0x10000) / 1024 < 0xdc00 := by omega
  have hlow : 0xdc00 ≤ 0xdc00 + (p.val - 0x10000) % 1024 ∧
      0xdc00 + (p.val - 0x10000) % 1024 < 0xe000 := by omega
  have hval : 0x10000 + (0xd800 + (p.val - 0x10000) / 1024 - 0xd800) * 1024 +
      (0xdc00 + (p.val - 0x10000) % 1024 - 0xdc00) = p.val := by omega
  simp only [scanEscape]
  rw [Json.scanHex4_hex4 (by omega)]
  simp only [if_pos hhigh]
  rw [Json.scanHex4_hex4 (by omega)]
  simp only [if_pos hlow, hval, codePoint_val]

theorem scanString_escape (n : Nat) {p : CodePoint} (hp : p.val < 0xd800 ∨ 0xdfff < p.val)
    (t : Text) :
    scanString (n + 1) (escape p ++ t) = (scanString n t).map fun r => (p :: r.1, r.2) := by
  have hbackslash : ∀ {u : Text}, scanEscape u = some (p, t) →
      scanString (n + 1) ('\\' :: u) = (scanString n t).map fun r => (p :: r.1, r.2) := by
    intro u hu
    rw [scanString, if_neg (by decide), if_pos rfl, hu]
  have hescape := escaped_escape p
  generalize escape p = u at hescape ⊢
  cases hescape with
  | @letter c h =>
    have hletter : ∀ e ∈ letters, scanEscape (e.2 :: t) = some (codePoint e.1, t) := by
      intro e he
      simp only [letters, List.mem_cons, List.not_mem_nil, or_false] at he
      rcases he with rfl | rfl | rfl | rfl | rfl | rfl | rfl <;> rfl
    have hscan : scanEscape (c :: t) = some (codePoint p.val, t) := hletter _ h
    rw [codePoint_val] at hscan
    exact hbackslash hscan
  | itself hlow hhigh hquote hslash =>
    have hn := toNat_ofNat_ascii hhigh
    have hchar : CodePoint.ofChar (Char.ofNat p.val) = p := Fin.ext hn
    rw [List.singleton_append, scanString, if_neg (ofNat_ne (c := '"') hhigh hquote),
      if_neg (ofNat_ne (c := '\\') hhigh hslash),
      if_neg (ofNat_ne (c := '\x00') hhigh (by omega : p.val ≠ 0)), hn, if_neg (by omega), hchar]
  | unit h => exact hbackslash (scanEscape_unit hp h t)
  | pair h =>
    rw [List.append_assoc]
    exact hbackslash (scanEscape_surrogates h t)

theorem scanString_flatMap {s : Str} (hs : Scalar s) : ∀ (n : Nat) (t : Text), s.length < n →
    scanString n (s.flatMap escape ++ '"' :: t) = some (s, t) := by
  induction s with
  | nil =>
    intro n t hn
    obtain ⟨n, rfl⟩ := Nat.exists_eq_add_one_of_ne_zero (Nat.ne_of_gt hn)
    rfl
  | cons p s ih =>
    intro n t hn
    obtain ⟨n, rfl⟩ := Nat.exists_eq_add_one_of_ne_zero (Nat.ne_of_gt (Nat.zero_lt_of_lt hn))
    rw [List.flatMap_cons, List.append_assoc, scanString_escape n (hs p List.mem_cons_self),
      ih (fun q hq => hs q (List.mem_cons_of_mem p hq)) n t (Nat.lt_of_succ_lt_succ hn)]
    rfl

theorem length_le_flatMap_escape (s : Str) : s.length ≤ (s.flatMap escape).length := by
  have hone : ∀ {p u}, Escaped p u → 1 ≤ u.length := fun hu => by cases hu <;> simp
  induction s with
  | nil => exact Nat.le_refl 0
  | cons p s ih =>
    have := hone (escaped_escape p)
    rw [List.flatMap_cons, List.length_append, List.length_cons]
    omega

/-- A key or a string value is read back from behind its opening quote. -/
theorem scanString_dumpsStr {s : Str} (hs : Scalar s) (n : Nat) (t : Text)
    (h : (dumpsStr s).length ≤ n + 1) :
    ∃ u, dumpsStr s ++ t = '"' :: u ∧ scanString n u = some (s, t) := by
  refine ⟨s.flatMap escape ++ '"' :: t, by simp [dumpsStr], scanString_flatMap hs n t ?_⟩
  have hlen := length_le_flatMap_escape s
  simp only [dumpsStr, List.length_cons, List.length_append, List.length_nil] at h
  omega

/-! ## The length of an array -/

section

variable {int : Text → Option ℤ} {float : Text → Option Binary64}

/-- The scanner spends fuel on every element. -/
theorem length_scanElems {n : Nat} : ∀ {t u : Text} {xs : List Value},
    scanElems int float n t = some (xs, u) → xs.length ≤ n := by
  induction n with
  | zero =>
    intro t u xs h
    cases h
  | succ n ih =>
    intro t u xs h
    obtain ⟨x, -, -, rfl | ⟨t', ys, hrest, rfl⟩⟩ := scanElems_cases h
    · exact Nat.le_add_left 1 n
    · exact Nat.succ_le_succ (ih hrest)

theorem length_scanValue {n : Nat} {t u : Text} {xs : List Value}
    (h : scanValue int float (n + 1) t = some (.list xs, u)) : xs.length ≤ n := by
  obtain hatomic | ⟨ys, hys, hscan⟩ | ⟨ms, hms, -⟩ := scanValue_cases h
  · exact hatomic.elim
  · cases hys
    obtain rfl | ⟨t', hscan⟩ := hscan
    · exact Nat.zero_le n
    · exact length_scanElems hscan
  · cases hms

/-- An array has no more elements than its text has characters. -/
theorem length_loads {t : Text} {xs : List Value} (ht : '\x00' ∉ t)
    (h : loads int float (Str.ofText t) = some (.list xs)) : xs.length ≤ t.length := by
  rw [loads, flatMap_mark_ofText ht, scan] at h
  split at h
  next hscan =>
    split at h
    · cases h
      exact length_scanValue hscan
    · cases h
  next => cases h

end

/-! ## The round trip of values -/

mutual
/-- No string has a surrogate, every float is finite and no dictionary has a key twice. -/
def Plain : Value → Prop
  | .float x => x.isFinite = true
  | .negZero => False
  | .str s => Scalar s
  | .list xs => PlainElems xs
  | .dict ms => (ms.map Prod.fst).Nodup ∧ PlainMembers ms
  | _ => True

def PlainElems : List Value → Prop
  | [] => True
  | x :: xs => Plain x ∧ PlainElems xs

def PlainMembers : List (Str × Value) → Prop
  | [] => True
  | m :: ms => Scalar m.1 ∧ Plain m.2 ∧ PlainMembers ms
end

mutual
theorem finite_of_plain : ∀ v, Plain v → finite v = true
  | .null, _ | .bool _, _ | .int _, _ | .str _, _ => rfl
  | .float _, h => h
  | .list xs, h => finiteElems_of_plain xs h
  | .dict ms, h => finiteMembers_of_plain ms h.2

theorem finiteElems_of_plain : ∀ xs, PlainElems xs → finiteElems xs = true
  | [], _ => rfl
  | x :: xs, h => Bool.and_eq_true_iff.mpr ⟨finite_of_plain x h.1, finiteElems_of_plain xs h.2⟩

theorem finiteMembers_of_plain : ∀ ms, PlainMembers ms → finiteMembers ms = true
  | [], _ => rfl
  | m :: ms, h =>
    Bool.and_eq_true_iff.mpr ⟨finite_of_plain m.2 h.2.1, finiteMembers_of_plain ms h.2.2⟩
end

/-- The conversions read back what `repr` writes. -/
structure Converts (repr : Binary64 → Text) (int : Text → Option ℤ)
    (float : Text → Option Binary64) : Prop where
  int_intText : ∀ n, int (intText n) = some n
  float_repr : ∀ x, x.isFinite = true → float (repr x) = some x
  repr_number : ∀ x, x.isFinite = true → Json.IsNumber (repr x)
  repr_fraction : ∀ x, x.isFinite = true → Json.isIntegral (repr x) = false
  repr_zero : (repr .zero).head? ≠ some '-'

theorem ws_skip {gap t : Text} {c : Char} (hgap : Ws gap) (hc : Json.isWs c = false) :
    Json.skipWs (gap ++ c :: t) = c :: t := by
  induction gap with
  | nil => exact Json.skipWs_cons hc t
  | cons b gap ih =>
    have hb : Json.isWs b = true := by
      rcases hgap b List.mem_cons_self with rfl | rfl | rfl | rfl <;> rfl
    rw [List.cons_append, Json.skipWs, List.dropWhile_cons_of_pos hb]
    exact ih fun d hd => hgap d (List.mem_cons_of_mem b hd)

theorem scanConstant_number {lit : Text} (h : Json.IsNumber lit) (t : Text) :
    scanConstant (lit ++ t) constants = none := by
  obtain ⟨c, v, rfl, hc | ⟨rfl, d, w, rfl, hd⟩⟩ := h.head
  · have hn := (Json.ne_of_isDigit hc (d := 'n') rfl).symm
    have ht := (Json.ne_of_isDigit hc (d := 't') rfl).symm
    have hf := (Json.ne_of_isDigit hc (d := 'f') rfl).symm
    have hN := (Json.ne_of_isDigit hc (d := 'N') rfl).symm
    have hI := (Json.ne_of_isDigit hc (d := 'I') rfl).symm
    have hm := (Json.ne_of_isDigit hc (d := '-') rfl).symm
    simp [scanConstant, constants, hn, ht, hf, hN, hI, hm]
  · have hI := (Json.ne_of_isDigit hd (d := 'I') rfl).symm
    simp [scanConstant, constants, hI]

section

variable {repr : Binary64 → Text} {int : Text → Option ℤ} {float : Text → Option Binary64}
  {gap : Text}

theorem scanValue_number {lit t : Text} {v : Value} (h : Json.IsNumber lit)
    (hv : number int float lit = some v) (ht : Json.Ends t) (n : Nat) :
    scanValue int float (n + 1) (lit ++ t) = some (v, t) := by
  have hscan := ht.scanNumber h
  have hconstant := scanConstant_number h t
  obtain ⟨c, u, rfl, hc⟩ := h.head
  have hne : c ≠ '"' ∧ c ≠ '[' ∧ c ≠ '{' := by
    rcases hc with hc | ⟨rfl, -⟩
    · exact ⟨Json.ne_of_isDigit hc rfl, Json.ne_of_isDigit hc rfl, Json.ne_of_isDigit hc rfl⟩
    · decide
  rw [List.cons_append] at hscan hconstant ⊢
  rw [scanValue, hconstant, scanNumber, hscan]
  · simp only [hv, Option.map_some, List.nil_append]
  · intro w hw
    exact hne.1 (List.cons.inj hw).1
  · intro w hw
    exact hne.2.1 (List.cons.inj hw).1
  · intro w hw
    exact hne.2.2 (List.cons.inj hw).1

theorem isHead_number {lit : Text} (h : Json.IsNumber lit) :
    ∃ c t, lit = c :: t ∧ Json.isHead c := by
  obtain ⟨c, t, rfl, hc⟩ := h.head
  rcases hc with hc | ⟨rfl, -⟩
  · exact ⟨c, t, rfl, .inr hc⟩
  · exact ⟨'-', t, rfl, by decide⟩

variable (hconv : Converts repr int float) (hgap : Ws gap)
include hconv

theorem number_intText (n : ℤ) : number int float (intText n) = some (.int n) := by
  rw [number, if_pos (Json.isIntegral_intText n), hconv.int_intText]
  rfl

theorem number_repr {x : Binary64} (hx : x.isFinite = true) :
    number int float (repr x) = some (.float x) := by
  have hsign : ¬(x = .zero ∧ (repr x).head? = some '-') := fun h => hconv.repr_zero (h.1 ▸ h.2)
  rw [number, hconv.repr_fraction x hx, hconv.float_repr x hx]
  simp only [Bool.false_eq_true, if_false, Option.map_some, signed, if_neg hsign]

theorem dumps_head (gap : Text) {v : Value} (h : Plain v) :
    ∃ c t, dumps repr gap v = c :: t ∧ Json.isHead c := by
  cases v with
  | null => exact ⟨'n', _, rfl, by decide⟩
  | bool b =>
    cases b with
    | true => exact ⟨'t', _, rfl, by decide⟩
    | false => exact ⟨'f', _, rfl, by decide⟩
  | int n => exact isHead_number (Json.isNumber_intText n)
  | float x =>
    obtain ⟨q, hq, hq', rfl⟩ := Binary64.exists_fin h
    exact isHead_number (hconv.repr_number _ h)
  | negZero => exact h.elim
  | str s => exact ⟨'"', _, rfl, by decide⟩
  | list xs => exact ⟨'[', _, rfl, by decide⟩
  | dict ms => exact ⟨'{', _, rfl, by decide⟩

theorem dumpsElems_head (gap : Text) {x : Value} (h : Plain x) (xs : List Value) :
    ∃ c t, dumpsElems repr gap (x :: xs) = c :: t ∧ Json.isHead c := by
  obtain ⟨c, t, ht, hc⟩ := dumps_head hconv gap h
  cases xs with
  | nil => exact ⟨c, t, ht, hc⟩
  | cons y ys => exact ⟨c, _, by rw [dumpsElems, ht]; rfl, hc⟩

omit hconv in
theorem dumpsMembers_head (repr : Binary64 → Text) (gap : Text) (m : Str × Value)
    (ms : List (Str × Value)) :
    ∃ t, dumpsMembers repr gap (m :: ms) = '"' :: t := by
  cases ms with
  | nil => exact ⟨_, rfl⟩
  | cons n ns => exact ⟨_, rfl⟩

include hgap

/-- Reading one member leaves the decision to what follows its value. -/
theorem scanMembers_member {k : Str} {v : Value} {n : Nat} {w : Text} (hk : Scalar k)
    (hv : Plain v) (hlen : (dumpsStr k).length ≤ n + 1)
    (hs : scanValue int float n (dumps repr gap v ++ w) = some (v, w)) :
    scanMembers int float (n + 1) (dumpsStr k ++ ':' :: (gap ++ (dumps repr gap v ++ w))) =
      match Json.skipWs w with
      | '}' :: u => some ([(k, v)], u)
      | ',' :: u => (scanMembers int float n (Json.skipWs u)).map fun r => ((k, v) :: r.1, r.2)
      | _ => none := by
  obtain ⟨c, x, hx, hc⟩ := dumps_head hconv gap hv
  obtain ⟨hws, -, -⟩ := Json.isHead_facts hc
  obtain ⟨u, hu, hscan⟩ := scanString_dumpsStr hk n (':' :: (gap ++ (dumps repr gap v ++ w))) hlen
  have hskip : Json.skipWs (gap ++ (dumps repr gap v ++ w)) = dumps repr gap v ++ w := by
    rw [hx, List.cons_append, ws_skip hgap hws]
  rw [hu, scanMembers, hscan]
  simp only [Json.skipWs_cons (show Json.isWs ':' = false by decide), hskip, hs]

end

/-- A dictionary is read when its members are. -/
theorem scanValue_members {repr : Binary64 → Text} {int : Text → Option ℤ}
    {float : Text → Option Binary64} {gap : Text} {m : Str × Value} {ms : List (Str × Value)}
    (hnodup : ((m :: ms).map Prod.fst).Nodup) {n : Nat} {t : Text}
    (h : scanMembers int float n (dumpsMembers repr gap (m :: ms) ++ '}' :: t) =
      some (m :: ms, t)) :
    scanValue int float (n + 1) (dumps repr gap (.dict (m :: ms)) ++ t) =
      some (.dict (m :: ms), t) := by
  obtain ⟨u, hu⟩ := dumpsMembers_head repr gap m ms
  rw [hu, List.cons_append] at h
  rw [dumps, hu, List.cons_append, List.append_assoc, List.cons_append, scanValue,
    Json.skipWs_cons (by decide)]
  have hdict : Dict.ofPairs (m :: ms) = ⟨m :: ms, hnodup⟩ :=
    Dict.ofPairs_items ⟨m :: ms, hnodup⟩
  split
  next heq => exact absurd (List.cons.inj heq).1 (by decide)
  next => rw [List.singleton_append, h, Option.map_some, hdict]

/- By recursion on the value.  The fuel only has to exceed the length of the text, since
every call takes a character before it passes the rest of its fuel on. -/
mutual
theorem scanValue_dumps {repr : Binary64 → Text} {int : Text → Option ℤ}
    {float : Text → Option Binary64} {gap : Text} (hconv : Converts repr int float)
    (hgap : Ws gap) : ∀ (v : Value), Plain v → ∀ (n : Nat) (t : Text), Json.Ends t →
      (dumps repr gap v).length < n →
        scanValue int float n (dumps repr gap v ++ t) = some (v, t)
  | .null, _, n, t, _, hn => by
    obtain ⟨n, rfl⟩ := Nat.exists_eq_add_one_of_ne_zero (Nat.ne_of_gt (Nat.zero_lt_of_lt hn))
    rfl
  | .bool true, _, n, t, _, hn => by
    obtain ⟨n, rfl⟩ := Nat.exists_eq_add_one_of_ne_zero (Nat.ne_of_gt (Nat.zero_lt_of_lt hn))
    rfl
  | .bool false, _, n, t, _, hn => by
    obtain ⟨n, rfl⟩ := Nat.exists_eq_add_one_of_ne_zero (Nat.ne_of_gt (Nat.zero_lt_of_lt hn))
    rfl
  | .int z, _, n, t, ht, hn => by
    obtain ⟨n, rfl⟩ := Nat.exists_eq_add_one_of_ne_zero (Nat.ne_of_gt (Nat.zero_lt_of_lt hn))
    exact scanValue_number (Json.isNumber_intText z) (number_intText hconv z) ht n
  | .float x, h, n, t, ht, hn => by
    obtain ⟨n, rfl⟩ := Nat.exists_eq_add_one_of_ne_zero (Nat.ne_of_gt (Nat.zero_lt_of_lt hn))
    obtain ⟨q, hq, hq', rfl⟩ := Binary64.exists_fin h
    exact scanValue_number (hconv.repr_number _ h) (number_repr hconv h) ht n
  | .str s, h, n, t, _, hn => by
    obtain ⟨n, rfl⟩ := Nat.exists_eq_add_one_of_ne_zero (Nat.ne_of_gt (Nat.zero_lt_of_lt hn))
    obtain ⟨u, hu, hs⟩ := scanString_dumpsStr h n t (Nat.le_of_lt_succ (Nat.lt_succ_of_lt hn))
    rw [dumps, hu, scanValue, hs]
    rfl
  | .list [], _, n, t, _, hn => by
    obtain ⟨n, rfl⟩ := Nat.exists_eq_add_one_of_ne_zero (Nat.ne_of_gt (Nat.zero_lt_of_lt hn))
    rfl
  | .list (x :: xs), h, n, t, _, hn => by
    obtain ⟨n, rfl⟩ := Nat.exists_eq_add_one_of_ne_zero (Nat.ne_of_gt (Nat.zero_lt_of_lt hn))
    have hlen : (dumpsElems repr gap (x :: xs)).length + 1 < n := by
      simp only [dumps, List.length_cons, List.length_append, List.length_nil] at hn
      omega
    have ih := scanElems_dumps hconv hgap x xs h n t hlen
    obtain ⟨c, u, hu, hc⟩ := dumpsElems_head hconv gap h.1 xs
    obtain ⟨hws, hne, -⟩ := Json.isHead_facts hc
    rw [hu, List.cons_append] at ih
    rw [dumps, hu, List.cons_append, List.append_assoc, List.cons_append, scanValue,
      Json.skipWs_cons hws]
    split
    next heq => exact absurd (List.cons.inj heq).1 hne
    next => rw [List.singleton_append, ih]; rfl
  | .dict [], _, n, t, _, hn => by
    obtain ⟨n, rfl⟩ := Nat.exists_eq_add_one_of_ne_zero (Nat.ne_of_gt (Nat.zero_lt_of_lt hn))
    rfl
  | .dict (m :: ms), h, n, t, _, hn => by
    obtain ⟨n, rfl⟩ := Nat.exists_eq_add_one_of_ne_zero (Nat.ne_of_gt (Nat.zero_lt_of_lt hn))
    have hlen : (dumpsMembers repr gap (m :: ms)).length + 1 < n := by
      simp only [dumps, List.length_cons, List.length_append, List.length_nil] at hn
      omega
    exact scanValue_members h.1 (scanMembers_dumps hconv hgap m ms h.2 n t hlen)

theorem scanElems_dumps {repr : Binary64 → Text} {int : Text → Option ℤ}
    {float : Text → Option Binary64} {gap : Text} (hconv : Converts repr int float)
    (hgap : Ws gap) : ∀ (x : Value) (xs : List Value), PlainElems (x :: xs) →
      ∀ (n : Nat) (t : Text), (dumpsElems repr gap (x :: xs)).length + 1 < n →
        scanElems int float n (dumpsElems repr gap (x :: xs) ++ ']' :: t) = some (x :: xs, t)
  | x, [], h, n, t, hn => by
    obtain ⟨n, rfl⟩ := Nat.exists_eq_add_one_of_ne_zero (Nat.ne_of_gt (Nat.zero_lt_of_lt hn))
    have ih := scanValue_dumps hconv hgap x h.1 n (']' :: t) (Json.ends_cons (by decide))
      (Nat.lt_of_succ_lt_succ hn)
    rw [dumpsElems, scanElems, ih]
    simp only [Json.skipWs_cons (show Json.isWs ']' = false by decide)]
  | x, y :: ys, h, n, t, hn => by
    obtain ⟨n, rfl⟩ := Nat.exists_eq_add_one_of_ne_zero (Nat.ne_of_gt (Nat.zero_lt_of_lt hn))
    have hlens : (dumps repr gap x).length < n ∧
        (dumpsElems repr gap (y :: ys)).length + 1 < n := by
      simp only [dumpsElems, List.length_append, List.length_cons] at hn
      omega
    have ih := scanValue_dumps hconv hgap x h.1 n
      (',' :: (gap ++ dumpsElems repr gap (y :: ys) ++ ']' :: t)) (Json.ends_cons (by decide)) hlens.1
    have ihs := scanElems_dumps hconv hgap y ys h.2 n t hlens.2
    obtain ⟨c, u, hu, hc⟩ := dumpsElems_head hconv gap h.2.1 ys
    obtain ⟨hws, -, -⟩ := Json.isHead_facts hc
    have hskip : Json.skipWs (gap ++ dumpsElems repr gap (y :: ys) ++ ']' :: t) =
        dumpsElems repr gap (y :: ys) ++ ']' :: t := by
      rw [hu, List.append_assoc, List.cons_append, ws_skip hgap hws]
    rw [dumpsElems, List.append_assoc, List.cons_append, scanElems, ih]
    simp only [Json.skipWs_cons (show Json.isWs ',' = false by decide), hskip, ihs,
      Option.map_some]

theorem scanMembers_dumps {repr : Binary64 → Text} {int : Text → Option ℤ}
    {float : Text → Option Binary64} {gap : Text} (hconv : Converts repr int float)
    (hgap : Ws gap) : ∀ (m : Str × Value) (ms : List (Str × Value)), PlainMembers (m :: ms) →
      ∀ (n : Nat) (t : Text), (dumpsMembers repr gap (m :: ms)).length + 1 < n →
        scanMembers int float n (dumpsMembers repr gap (m :: ms) ++ '}' :: t) = some (m :: ms, t)
  | (k, v), [], h, n, t, hn => by
    obtain ⟨n, rfl⟩ := Nat.exists_eq_add_one_of_ne_zero (Nat.ne_of_gt (Nat.zero_lt_of_lt hn))
    have hlens : (dumpsStr k).length ≤ n + 1 ∧ (dumps repr gap v).length < n := by
      simp only [dumpsMembers, List.length_append, List.length_cons] at hn
      omega
    have ih := scanValue_dumps hconv hgap v h.2.1 n ('}' :: t) (Json.ends_cons (by decide)) hlens.2
    rw [dumpsMembers, List.append_assoc, List.cons_append, List.append_assoc,
      scanMembers_member hconv hgap h.1 h.2.1 hlens.1 ih, Json.skipWs_cons (by decide)]
    rfl
  | (k, v), m :: ms, h, n, t, hn => by
    obtain ⟨n, rfl⟩ := Nat.exists_eq_add_one_of_ne_zero (Nat.ne_of_gt (Nat.zero_lt_of_lt hn))
    have hlens : (dumpsStr k).length ≤ n + 1 ∧ (dumps repr gap v).length < n ∧
        (dumpsMembers repr gap (m :: ms)).length + 1 < n := by
      simp only [dumpsMembers, List.length_append, List.length_cons] at hn
      omega
    have ih := scanValue_dumps hconv hgap v h.2.1 n
      (',' :: (gap ++ dumpsMembers repr gap (m :: ms)) ++ '}' :: t) (Json.ends_cons (by decide))
      hlens.2.1
    have ihs := scanMembers_dumps hconv hgap m ms h.2.2 n t hlens.2.2
    obtain ⟨u, hu⟩ := dumpsMembers_head repr gap m ms
    have hskip : Json.skipWs (gap ++ dumpsMembers repr gap (m :: ms) ++ '}' :: t) =
        dumpsMembers repr gap (m :: ms) ++ '}' :: t := by
      rw [hu, List.append_assoc, List.cons_append, ws_skip hgap (by decide)]
    have hone := scanMembers_member hconv hgap h.1 h.2.1 hlens.1 ih
    rw [dumpsMembers, List.append_assoc, List.cons_append, List.append_assoc, List.append_assoc]
    rw [hone]
    simp only [List.cons_append, Json.skipWs_cons (show Json.isWs ',' = false by decide), hskip,
      ihs, Option.map_some]
end

theorem nul_not_mem_dumps {repr : Binary64 → Text} {gap : Text}
    (hrepr : ∀ x, x.isFinite = true → Json.IsNumber (repr x)) (hgap : Ws gap) (v : Value) :
    '\x00' ∉ dumps repr gap v := by
  have hblank : gap.all (fun c => c != '\x00') = true := by
    refine List.all_eq_true.mpr fun c hc => ?_
    rcases hgap c hc with rfl | rfl | rfl | rfl <;> rfl
  have hprintable : ∀ c, isPrintable c = true → (c != '\x00') = true := by
    intro c hc
    rw [bne_iff_ne]
    rintro rfl
    cases hc
  have hall := dumps_all hrepr hprintable hblank v
  exact fun hmem => absurd (List.all_eq_true.mp hall _ hmem) (by decide)

theorem loads_dumps {repr : Binary64 → Text} {int : Text → Option ℤ}
    {float : Text → Option Binary64} {gap : Text} (hconv : Converts repr int float)
    (hgap : Ws gap) {v : Value} (h : Plain v) :
    loads int float (Str.ofText (dumps repr gap v)) = some v := by
  obtain ⟨c, t, ht, hc⟩ := dumps_head hconv gap h
  obtain ⟨hws, -, -⟩ := Json.isHead_facts hc
  have hskip : Json.skipWs (dumps repr gap v) = dumps repr gap v ++ [] := by
    rw [List.append_nil, ht, Json.skipWs_cons hws]
  rw [loads, flatMap_mark_ofText (nul_not_mem_dumps hconv.repr_number hgap v), scan, hskip,
    scanValue_dumps hconv hgap v h _ [] (fun _ _ h => by cases h) (Nat.lt_succ_self _)]
  rfl

/-- A dictionary may have blanks behind it. -/
theorem loads_dumps_dict {repr : Binary64 → Text} {int : Text → Option ℤ}
    {float : Text → Option Binary64} {gap : Text} (hconv : Converts repr int float)
    (hgap : Ws gap) {m : Str × Value} {ms : List (Str × Value)} (h : Plain (.dict (m :: ms)))
    {w : Text} (hw : ∀ c ∈ w, Json.isWs c = true) :
    loads int float (Str.ofText (dumps repr gap (.dict (m :: ms)) ++ w)) =
      some (.dict (m :: ms)) := by
  have hlen : (dumpsMembers repr gap (m :: ms)).length + 1 <
      (dumps repr gap (.dict (m :: ms)) ++ w).length := by
    simp only [dumps, List.length_cons, List.length_append, List.length_nil]
    omega
  have hscan := scanValue_members h.1 (scanMembers_dumps hconv hgap m ms h.2 _ w hlen)
  have hskip : Json.skipWs (dumps repr gap (.dict (m :: ms)) ++ w) =
      dumps repr gap (.dict (m :: ms)) ++ w := by
    rw [dumps, List.cons_append, Json.skipWs_cons (by decide)]
  have hempty : Json.skipWs w = [] := List.dropWhile_eq_nil_iff.mpr hw
  have hnul : '\x00' ∉ dumps repr gap (.dict (m :: ms)) ++ w := by
    rw [List.mem_append]
    rintro (hmem | hmem)
    · exact nul_not_mem_dumps hconv.repr_number hgap _ hmem
    · exact absurd (hw _ hmem) (by decide)
  rw [loads, flatMap_mark_ofText hnul, scan, hskip, hscan]
  simp only [hempty, List.isEmpty_nil, if_true]

end Value

end Python
