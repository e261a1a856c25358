/-
The grammar of JSON texts, RFC 8259.

`Neutral` is what a valid text shows to a reader that only tells strings from the rest:
outside of its strings no capital of `NaN` or `Infinity` occurs, and every string that
is opened is closed.
-/
import AdaptiveGateway.Codec.Decimal

namespace Codec

namespace Rfc8259

/-! ## The grammar -/

/-- `ws` -/
def Ws (t : Text) : Prop := ∀ c ∈ t, c = ' ' ∨ c = '\t' ∨ c = '\n' ∨ c = '\r'

def Digits (t : Text) : Prop := ∀ c ∈ t, Json.isDigit c = true

/-- `int` -/
def Int (t : Text) : Prop :=
  t = ['0'] ∨ ∃ c u, t = c :: u ∧ Json.isDigit c = true ∧ c ≠ '0' ∧ Digits u

/-- `[ frac ]` -/
def Frac (t : Text) : Prop := t = [] ∨ ∃ u, t = '.' :: u ∧ u ≠ [] ∧ Digits u

/-- `[ exp ]` -/
def Exp (t : Text) : Prop :=
  t = [] ∨ ∃ e sign u, t = e :: (sign ++ u) ∧ (e = 'e' ∨ e = 'E') ∧
    (sign = [] ∨ sign = ['+'] ∨ sign = ['-']) ∧ u ≠ [] ∧ Digits u

def Number (t : Text) : Prop :=
  ∃ minus i f e, t = minus ++ i ++ f ++ e ∧ (minus = [] ∨ minus = ['-']) ∧ Int i ∧ Frac f ∧ Exp e

def isHex (c : Char) : Bool := (Json.hexVal c).isSome

/-- `*char` -/
inductive Chars : Text → Prop
  | nil : Chars []
  | unescaped {c : Char} {t : Text} (hc : 32 ≤ c.toNat) (hquote : c ≠ '"') (hslash : c ≠ '\\')
      (ht : Chars t) : Chars (c :: t)
  | escaped {c : Char} {t : Text} (hc : c ∈ ['"', '\\', '/', 'b', 'f', 'n', 'r', 't'])
      (ht : Chars t) : Chars ('\\' :: c :: t)
  | unicode {u t : Text} (hlen : u.length = 4) (hu : ∀ c ∈ u, isHex c = true) (ht : Chars t) :
      Chars ('\\' :: 'u' :: (u ++ t))

def Quoted (t : Text) : Prop := ∃ u, Chars u ∧ t = '"' :: (u ++ ['"'])

mutual
inductive Value : Text → Prop
  | null : Value ['n', 'u', 'l', 'l']
  | true : Value ['t', 'r', 'u', 'e']
  | false : Value ['f', 'a', 'l', 's', 'e']
  | number {t : Text} (h : Number t) : Value t
  | string {t : Text} (h : Quoted t) : Value t
  | emptyArray {w : Text} (hw : Ws w) : Value ('[' :: (w ++ [']']))
  | array {t : Text} (h : Elements t) : Value ('[' :: (t ++ [']']))
  | emptyObject {w : Text} (hw : Ws w) : Value ('{' :: (w ++ ['}']))
  | object {t : Text} (h : Members t) : Value ('{' :: (t ++ ['}']))

/-- `value *( value-separator value )`, with the blanks around the values. -/
inductive Elements : Text → Prop
  | one {w v w' : Text} (hw : Ws w) (hv : Value v) (hw' : Ws w') : Elements (w ++ v ++ w')
  | more {w v w' t : Text} (hw : Ws w) (hv : Value v) (hw' : Ws w') (ht : Elements t) :
      Elements (w ++ v ++ w' ++ ',' :: t)

/-- `member *( value-separator member )` -/
inductive Members : Text → Prop
  | one {w k w' x v y : Text} (hw : Ws w) (hk : Quoted k) (hw' : Ws w') (hx : Ws x) (hv : Value v)
      (hy : Ws y) : Members (w ++ k ++ w' ++ ':' :: (x ++ v ++ y))
  | more {w k w' x v y t : Text} (hw : Ws w) (hk : Quoted k) (hw' : Ws w') (hx : Ws x)
      (hv : Value v) (hy : Ws y) (ht : Members t) :
      Members (w ++ k ++ w' ++ ':' :: (x ++ v ++ y) ++ ',' :: t)
end

/-- `JSON-text` -/
def JsonText (t : Text) : Prop := ∃ w v w', t = w ++ v ++ w' ∧ Ws w ∧ Value v ∧ Ws w'

theorem ws_nil : Ws [] := by
  intro c hc
  cases hc

theorem Ws.append {t u : Text} (ht : Ws t) (hu : Ws u) : Ws (t ++ u) := by
  intro c hc
  exact (List.mem_append.mp hc).elim (ht c) (hu c)

/-! ## Outside of strings -/

inductive Mode where
  | plain
  /-- In a string. -/
  | quoted
  /-- Behind a backslash. -/
  | escape
deriving DecidableEq

/-- Where the reader is behind a character, and whether it has met a capital. -/
def read : Mode × Bool → Char → Mode × Bool
  | (.plain, seen), c =>
    if c = '"' then (.quoted, seen) else (.plain, seen || c == 'N' || c == 'I')
  | (.quoted, seen), c =>
    if c = '"' then (.plain, seen) else if c = '\\' then (.escape, seen) else (.quoted, seen)
  | (.escape, seen), _ => (.quoted, seen)

/-- The text is read through without a capital outside of its strings. -/
def Neutral (t : Text) : Prop := ∀ seen, t.foldl read (.plain, seen) = (.plain, seen)

theorem Neutral.append {t u : Text} (ht : Neutral t) (hu : Neutral u) : Neutral (t ++ u) := by
  intro seen
  rw [List.foldl_append, ht, hu]

theorem neutral_of_chars {t : Text} (h : ∀ c ∈ t, c ≠ '"' ∧ c ≠ 'N' ∧ c ≠ 'I') : Neutral t := by
  intro seen
  induction t with
  | nil => rfl
  | cons c t ih =>
    obtain ⟨hquote, hN, hI⟩ := h c List.mem_cons_self
    have hc : read (.plain, seen) c = (.plain, seen) := by
      rw [read, if_neg hquote, beq_false_of_ne hN, beq_false_of_ne hI, Bool.or_false, Bool.or_false]
    rw [List.foldl_cons, hc, ih fun d hd => h d (List.mem_cons_of_mem c hd)]

theorem neutral_nil : Neutral [] := fun _ => rfl

theorem Neutral.cons {c : Char} {t : Text} (hc : c ≠ '"' ∧ c ≠ 'N' ∧ c ≠ 'I') (ht : Neutral t) :
    Neutral (c :: t) := by
  have hone : Neutral [c] := neutral_of_chars fun d hd => by rwa [List.mem_singleton.mp hd]
  exact hone.append ht

theorem neutral_one {c : Char} (hc : c ≠ '"' ∧ c ≠ 'N' ∧ c ≠ 'I') : Neutral [c] :=
  Neutral.cons hc neutral_nil

theorem Ws.neutral {t : Text} (h : Ws t) : Neutral t := by
  refine neutral_of_chars fun c hc => ?_
  rcases h c hc with rfl | rfl | rfl | rfl <;> decide

/-- The characters of numbers. -/
def isNumeral (c : Char) : Bool := Json.isDigit c || decide (c ∈ ['-', '+', '.', 'e', 'E'])

theorem Digits.numeral {t : Text} (h : Digits t) : t.all isNumeral = true := by
  refine List.all_eq_true.mpr fun c hc => ?_
  rw [isNumeral, h c hc, Bool.true_or]

theorem Number.numeral {t : Text} (h : Number t) : t.all isNumeral = true := by
  obtain ⟨minus, i, f, e, rfl, hminus, hi, hf, he⟩ := h
  have hsign : minus.all isNumeral = true := by
    rcases hminus with rfl | rfl <;> rfl
  have hint : i.all isNumeral = true := by
    rcases hi with rfl | ⟨c, u, rfl, hc, -, hu⟩
    · rfl
    · rw [List.all_cons, hu.numeral, isNumeral, hc]
      rfl
  have hfrac : f.all isNumeral = true := by
    rcases hf with rfl | ⟨u, rfl, -, hu⟩
    · rfl
    · rw [List.all_cons, hu.numeral]
      rfl
  have hexp : e.all isNumeral = true := by
    rcases he with rfl | ⟨e, sign, u, rfl, he, hs, -, hu⟩
    · rfl
    · have hsign : sign.all isNumeral = true := by
        rcases hs with rfl | rfl | rfl <;> rfl
      rw [List.all_cons, List.all_append, hsign, hu.numeral]
      rcases he with rfl | rfl <;> rfl
  rw [List.all_append, List.all_append, List.all_append, hsign, hint, hfrac, hexp]
  rfl

theorem isNumeral_plain {c : Char} (h : isNumeral c = true) : c ≠ '"' ∧ c ≠ 'N' ∧ c ≠ 'I' := by
  refine ⟨?_, ?_, ?_⟩ <;> (rintro rfl; cases h)

theorem Number.neutral {t : Text} (h : Number t) : Neutral t :=
  neutral_of_chars fun c hc => isNumeral_plain (List.all_eq_true.mp h.numeral c hc)

theorem Chars.quoted {t : Text} (h : Chars t) (seen : Bool) :
    t.foldl read (.quoted, seen) = (.quoted, seen) := by
  have hplain : ∀ {c : Char}, c ≠ '"' → c ≠ '\\' → read (.quoted, seen) c = (.quoted, seen) := by
    intro c hquote hslash
    rw [read, if_neg hquote, if_neg hslash]
  have hhex : ∀ {c : Char}, isHex c = true → c ≠ '"' ∧ c ≠ '\\' := by
    intro c hc
    constructor <;> (rintro rfl; cases hc)
  induction h with
  | nil => rfl
  | unescaped _ hquote hslash _ ih => rw [List.foldl_cons, hplain hquote hslash, ih]
  | escaped _ _ ih => exact ih
  | @unicode u t _ hu _ ih =>
    have hdigits : ∀ u : Text, (∀ c ∈ u, isHex c = true) →
        u.foldl read (.quoted, seen) = (.quoted, seen) := by
      intro u
      induction u with
      | nil => exact fun _ => rfl
      | cons c u ihu =>
        intro hu
        obtain ⟨hquote, hslash⟩ := hhex (hu c List.mem_cons_self)
        rw [List.foldl_cons, hplain hquote hslash, ihu fun d hd => hu d (List.mem_cons_of_mem c hd)]
    show (u ++ t).foldl read (.quoted, seen) = _
    rw [List.foldl_append, hdigits u hu, ih]

theorem Quoted.neutral {t : Text} (h : Quoted t) : Neutral t := by
  obtain ⟨u, hu, rfl⟩ := h
  intro seen
  show (u ++ ['"']).foldl read (.quoted, seen) = _
  rw [List.foldl_append, hu.quoted]
  rfl

mutual
theorem Value.neutral {t : Text} : Value t → Neutral t
  | .null | .true | .false => neutral_of_chars (by simp)
  | .number h => h.neutral
  | .string h => h.neutral
  | .emptyArray hw => Neutral.cons (by decide) (hw.neutral.append (neutral_one (by decide)))
  | .array h => Neutral.cons (by decide) (h.neutral.append (neutral_one (by decide)))
  | .emptyObject hw => Neutral.cons (by decide) (hw.neutral.append (neutral_one (by decide)))
  | .object h => Neutral.cons (by decide) (h.neutral.append (neutral_one (by decide)))

theorem Elements.neutral {t : Text} : Elements t → Neutral t
  | .one hw hv hw' => (hw.neutral.append hv.neutral).append hw'.neutral
  | .more hw hv hw' ht =>
    ((hw.neutral.append hv.neutral).append hw'.neutral).append (Neutral.cons (by decide) ht.neutral)

theorem Members.neutral {t : Text} : Members t → Neutral t
  | .one hw hk hw' hx hv hy =>
    ((hw.neutral.append hk.neutral).append hw'.neutral).append
      (Neutral.cons (by decide) ((hx.neutral.append hv.neutral).append hy.neutral))
  | .more hw hk hw' hx hv hy ht =>
    (((hw.neutral.append hk.neutral).append hw'.neutral).append
      (Neutral.cons (by decide) ((hx.neutral.append hv.neutral).append hy.neutral))).append
        (Neutral.cons (by decide) ht.neutral)
end

theorem JsonText.neutral {t : Text} (h : JsonText t) : Neutral t := by
  obtain ⟨w, v, w', rfl, hw, hv, hw'⟩ := h
  exact (hw.neutral.append hv.neutral).append hw'.neutral

/-! ## Numbers as the parser reads them -/

theorem digits_takeWhile (t : Text) : Digits (t.takeWhile Json.isDigit) :=
  fun _ hc => List.all_eq_true.mp List.all_takeWhile _ hc

theorem int_takeWhile {t : Text} (h : ¬(t.takeWhile Json.isDigit).isEmpty = true)
    (hzero : ∀ u, t ≠ '0' :: u) : Int (t.takeWhile Json.isDigit) := by
  obtain ⟨c, u, rfl, hc⟩ := Json.head_of_takeWhile h
  have hne : c ≠ '0' := by
    rintro rfl
    exact hzero u rfl
  rw [List.takeWhile_cons_of_pos hc]
  exact .inr ⟨c, _, rfl, hc, hne, digits_takeWhile u⟩

theorem scanInteger_int {t i u : Text} (h : Json.scanInteger t = some (i, u)) :
    ∃ minus n, i = minus ++ n ∧ (minus = [] ∨ minus = ['-']) ∧ Int n := by
  have hsign : (t.take 1).filter (fun c => c == '-') = [] ∨
      (t.take 1).filter (fun c => c == '-') = ['-'] := by
    cases t with
    | nil => exact .inl rfl
    | cons c t =>
      by_cases hc : c = '-'
      · exact .inr (by simp [hc])
      · exact .inl (by simp [hc])
  simp only [Json.scanInteger] at h
  generalize (t.take 1).filter (fun c => c == '-') = minus at h hsign
  split at h
  next =>
    cases h
    exact ⟨minus, ['0'], rfl, hsign, .inl rfl⟩
  next hzero =>
    split at h
    · cases h
    next hempty =>
      cases h
      exact ⟨minus, _, rfl, hsign, int_takeWhile hempty hzero⟩

theorem scanFraction_frac (t : Text) : Frac (Json.scanFraction t).1 := by
  unfold Json.scanFraction
  split
  next u =>
    split
    · exact .inl rfl
    next hempty =>
      exact .inr ⟨_, rfl, fun h => hempty (List.isEmpty_iff.mpr h), digits_takeWhile u⟩
  next => exact .inl rfl

theorem scanExponent_exp (t : Text) : Exp (Json.scanExponent t).1 := by
  cases t with
  | nil => exact .inl rfl
  | cons e u =>
    have hsign : (u.take 1).filter (fun c => c == '-' || c == '+') = [] ∨
        (u.take 1).filter (fun c => c == '-' || c == '+') = ['+'] ∨
        (u.take 1).filter (fun c => c == '-' || c == '+') = ['-'] := by
      cases u with
      | nil => exact .inl rfl
      | cons c u =>
        by_cases hminus : c = '-'
        · exact .inr (.inr (by simp [hminus]))
        · by_cases hplus : c = '+'
          · exact .inr (.inl (by simp [hplus]))
          · exact .inl (by simp [hminus, hplus])
    simp only [Json.scanExponent]
    split
    next he =>
      split
      · exact .inl rfl
      next hempty =>
        exact .inr ⟨e, _, _, rfl, he, hsign, fun h => hempty (List.isEmpty_iff.mpr h),
          digits_takeWhile _⟩
    next => exact .inl rfl

/-- What the parser takes for a number is one. -/
theorem number_of_isNumber {lit : Text} (h : Json.IsNumber lit) : Number lit := by
  rw [Json.IsNumber, Json.scanNumber] at h
  split at h
  · cases h
  next i t hi =>
    obtain ⟨minus, n, rfl, hminus, hn⟩ := scanInteger_int hi
    have hlit := (Prod.mk.inj (Option.some.inj h)).1
    exact ⟨minus, n, _, _, hlit.symm, hminus, hn, scanFraction_frac t, scanExponent_exp _⟩

end Rfc8259

end Codec
