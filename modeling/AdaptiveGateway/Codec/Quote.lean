/-
Percent-encoding and its inverse.

`quote` leaves a byte alone or writes it as `%` and two hexadecimal digits, so
reading the escapes back gives the bytes of the text, whatever it was made of.
Only the characters that `quote` may leave alone can stand in its result, and `%`.
-/
import AdaptiveGateway.Codec.Json
import AdaptiveGateway.Codec.Url

namespace Codec

namespace Url

/-- `unquote_to_bytes`; a `%` without two digits stands for itself. -/
def unquoteBytes : Text → Bytes
  | [] => []
  | '%' :: h :: l :: t =>
    match Json.hexVal h, Json.hexVal l with
    | some a, some b => UInt8.ofNat (a * 16 + b) :: unquoteBytes t
    | _, _ => utf8 ['%'] ++ unquoteBytes (h :: l :: t)
  | c :: t => utf8 [c] ++ unquoteBytes t

/-- `unquote`; `none` where the bytes are not UTF-8. -/
def unquote (t : Text) : Option Text := utf8Decode (unquoteBytes t)

/-- What `quote` writes for a byte. -/
def quoteByte (safe : Text) (b : UInt8) : Text :=
  let c := Char.ofNat b.toNat
  if isUnreserved c || safe.contains c then [c]
  else ['%', hexUpper (b.toNat / 16), hexUpper (b.toNat % 16)]

theorem quote_eq (safe t : Text) : quote safe t = (utf8 t).flatMap (quoteByte safe) := rfl

/-- The characters that may be declared safe: ASCII, and not the escape itself. -/
def Plain (safe : Text) : Prop := ∀ c ∈ safe, c.toNat < 128 ∧ c ≠ '%'

instance (safe : Text) : Decidable (Plain safe) :=
  List.decidableBAll (fun c : Char => c.toNat < 128 ∧ c ≠ '%') safe

theorem isUnreserved_plain {c : Char} (h : isUnreserved c = true) : c.toNat < 128 ∧ c ≠ '%' := by
  simp only [isUnreserved, isAsciiAlpha, isAsciiDigit, Bool.or_eq_true, decide_eq_true_eq,
    beq_iff_eq] at h
  rcases h with ((((h | h) | h) | h) | h) | h
  · refine ⟨by omega, ?_⟩
    rintro rfl
    exact absurd h (by decide)
  · refine ⟨by omega, ?_⟩
    rintro rfl
    exact absurd h (by decide)
  · exact h ▸ by decide
  · exact h ▸ by decide
  · exact h ▸ by decide
  · exact h ▸ by decide

theorem unquoteBytes_of_ne {c : Char} (h : c ≠ '%') (t : Text) :
    unquoteBytes (c :: t) = utf8 [c] ++ unquoteBytes t := by
  rw [unquoteBytes]
  simp [h]

theorem hexVal_hexUpper {d : Nat} (h : d < 16) : Json.hexVal (hexUpper d) = some d := by
  revert d
  decide

theorem utf8_ascii {b : UInt8} (h : b.toNat < 128) : utf8 [Char.ofNat b.toNat] = [b] := by
  have hval : (Char.ofNat b.toNat).val.toNat = b.toNat := toNat_ofNat_byte b
  rw [utf8, List.flatMap_singleton, String.utf8EncodeChar]
  rw [if_pos (by rw [hval]; omega), hval]
  simp

theorem unquoteBytes_quoteByte {safe : Text} (hsafe : Plain safe) (b : UInt8) (t : Text) :
    unquoteBytes (quoteByte safe b ++ t) = b :: unquoteBytes t := by
  unfold quoteByte
  dsimp only
  split
  next h =>
    have hplain : (Char.ofNat b.toNat).toNat < 128 ∧ Char.ofNat b.toNat ≠ '%' := by
      rcases Bool.or_eq_true_iff.mp h with h | h
      · exact isUnreserved_plain h
      · exact hsafe _ (List.contains_iff_mem.mp h)
    rw [toNat_ofNat_byte] at hplain
    rw [List.singleton_append, unquoteBytes_of_ne hplain.2, utf8_ascii hplain.1,
      List.singleton_append]
  next =>
    have hb : b.toNat < 256 := b.toNat_lt
    have hdigits : b.toNat / 16 * 16 + b.toNat % 16 = b.toNat := by omega
    show unquoteBytes ('%' :: hexUpper (b.toNat / 16) :: hexUpper (b.toNat % 16) :: t) = _
    rw [unquoteBytes, hexVal_hexUpper (by omega), hexVal_hexUpper (by omega)]
    simp only [hdigits, UInt8.ofNat_toNat]

/-- What is quoted reads back. -/
theorem unquote_quote {safe : Text} (hsafe : Plain safe) (t : Text) :
    unquote (quote safe t) = some t := by
  have hbytes : ∀ bs : Bytes, unquoteBytes (bs.flatMap (quoteByte safe)) = bs := by
    intro bs
    induction bs with
    | nil => rfl
    | cons b bs ih => rw [List.flatMap_cons, unquoteBytes_quoteByte hsafe, ih]
  rw [unquote, quote_eq, hbytes, utf8Decode_utf8]

/-- The characters of a quoted text. -/
theorem mem_quote {safe t : Text} {c : Char} (h : c ∈ quote safe t) :
    isUnreserved c = true ∨ c ∈ safe ∨ c = '%' := by
  obtain ⟨b, -, hc⟩ := List.mem_flatMap.mp h
  have hb : b.toNat < 256 := b.toNat_lt
  have hdigit : ∀ d < 16, isUnreserved (hexUpper d) = true := by decide
  dsimp only at hc
  split at hc
  next hkept =>
    rw [List.mem_singleton.mp hc]
    rcases Bool.or_eq_true_iff.mp hkept with hkept | hkept
    · exact .inl hkept
    · exact .inr (.inl (List.contains_iff_mem.mp hkept))
  next =>
    simp only [List.mem_cons, List.not_mem_nil, or_false] at hc
    rcases hc with rfl | rfl | rfl
    · exact .inr (.inr rfl)
    · exact .inl (hdigit _ (by omega))
    · exact .inl (hdigit _ (by omega))

/-! ## The parts of a quoted text -/

/-- Characters that are `plain`, and escapes. -/
inductive WellEscaped (plain : Char → Prop) : Text → Prop
  | nil : WellEscaped plain []
  | plain {c : Char} {t : Text} (hc : plain c) (ht : WellEscaped plain t) :
      WellEscaped plain (c :: t)
  | escape {h l : Char} {t : Text} (hh : (Json.hexVal h).isSome) (hl : (Json.hexVal l).isSome)
      (ht : WellEscaped plain t) : WellEscaped plain ('%' :: h :: l :: t)

theorem wellEscaped_quote (safe t : Text) :
    WellEscaped (fun c => isUnreserved c = true ∨ c ∈ safe) (quote safe t) := by
  rw [quote_eq]
  induction utf8 t with
  | nil => exact .nil
  | cons b bs ih =>
    have hb : b.toNat < 256 := b.toNat_lt
    rw [List.flatMap_cons, quoteByte]
    split
    next h =>
      refine .plain ?_ ih
      rcases Bool.or_eq_true_iff.mp h with h | h
      · exact .inl h
      · exact .inr (List.contains_iff_mem.mp h)
    next =>
      have hdigit : ∀ d < 16, (Json.hexVal (hexUpper d)).isSome = true := fun d hd => by
        rw [hexVal_hexUpper hd]
        rfl
      exact .escape (hdigit _ (by omega)) (hdigit _ (by omega)) ih

/-- A byte below 128 stands for its own character only. -/
theorem eq_of_mem_utf8EncodeChar {c : Char} {b : UInt8} (hb : b ∈ String.utf8EncodeChar c)
    (hlt : b.toNat < 128) : c = Char.ofNat b.toNat := by
  have hhigh : ∀ n, 128 ≤ n → n < 256 → b ≠ UInt8.ofNat n := by
    rintro n hle hn rfl
    rw [UInt8.toNat_ofNat', Nat.mod_eq_of_lt hn] at hlt
    omega
  suffices hval : b.toNat = c.toNat by
    rw [hval]
    exact (Char.ofNat_toNat c).symm
  unfold String.utf8EncodeChar at hb
  dsimp only at hb
  split at hb
  next hsmall =>
    have hc : c.toNat < 2 ^ 8 := by
      show c.val.toNat < 2 ^ 8
      omega
    rw [List.mem_singleton.mp hb, UInt8.toNat_ofNat']
    exact Nat.mod_eq_of_lt hc
  next =>
    split at hb
    · simp only [List.mem_cons, List.not_mem_nil, or_false] at hb
      rcases hb with hb | hb <;> exact absurd hb (hhigh _ (by omega) (by omega))
    · split at hb
      · simp only [List.mem_cons, List.not_mem_nil, or_false] at hb
        rcases hb with hb | hb | hb <;> exact absurd hb (hhigh _ (by omega) (by omega))
      · simp only [List.mem_cons, List.not_mem_nil, or_false] at hb
        rcases hb with hb | hb | hb | hb <;> exact absurd hb (hhigh _ (by omega) (by omega))

/-- What `quote` writes for a character. -/
def quoteChar (safe : Text) (c : Char) : Text := (String.utf8EncodeChar c).flatMap (quoteByte safe)

theorem quote_eq_flatMap (safe t : Text) : quote safe t = t.flatMap (quoteChar safe) := by
  rw [quote_eq, utf8, List.flatMap_assoc]
  rfl

/-- A character that is neither the escape nor one of its digits is only written for itself. -/
theorem not_mem_quoteChar {safe : Text} (hsafe : Plain safe) {sep : Char} (hmark : sep ≠ '%')
    (hdigit : Json.hexVal sep = none) {c : Char} (hc : c ≠ sep) : sep ∉ quoteChar safe c := by
  intro hmem
  obtain ⟨b, hb, hsep⟩ := List.mem_flatMap.mp hmem
  have hlt : b.toNat < 256 := b.toNat_lt
  have hdigit' : ∀ d < 16, sep ≠ hexUpper d := by
    rintro d hd rfl
    rw [hexVal_hexUpper hd] at hdigit
    cases hdigit
  rw [quoteByte] at hsep
  split at hsep
  next hkept =>
    have hplain : (Char.ofNat b.toNat).toNat < 128 := by
      rcases Bool.or_eq_true_iff.mp hkept with h | h
      · exact (isUnreserved_plain h).1
      · exact (hsafe _ (List.contains_iff_mem.mp h)).1
    rw [toNat_ofNat_byte] at hplain
    exact hc ((eq_of_mem_utf8EncodeChar hb hplain).trans (List.mem_singleton.mp hsep).symm)
  next =>
    simp only [List.mem_cons, List.not_mem_nil, or_false] at hsep
    rcases hsep with hsep | hsep | hsep
    · exact hmark hsep
    · exact hdigit' _ (by omega) hsep
    · exact hdigit' _ (by omega) hsep

theorem quoteChar_of_mem {safe : Text} (hsafe : Plain safe) {c : Char} (hc : c ∈ safe) :
    quoteChar safe c = [c] := by
  have hlt : c.val.toNat < 128 := (hsafe c hc).1
  have hchar : Char.ofNat (UInt8.ofNat c.val.toNat).toNat = c := by
    rw [UInt8.toNat_ofNat', Nat.mod_eq_of_lt (by omega)]
    exact Char.ofNat_toNat c
  rw [quoteChar, String.utf8EncodeChar, if_pos (by omega), List.flatMap_singleton, quoteByte, hchar,
    List.contains_iff_mem.mpr hc, Bool.or_true]
  rfl

/-- At a safe character a text is cut before quoting as after it. -/
theorem splitOn_quote {safe : Text} (hsafe : Plain safe) {sep : Char} (hsep : sep ∈ safe)
    (hdigit : Json.hexVal sep = none) (t : Text) :
    splitOn sep (quote safe t) = (splitOn sep t).map (quote safe) := by
  rw [quote_eq_flatMap, splitOn_flatMap (quoteChar_of_mem hsafe hsep)
    fun c hc => not_mem_quoteChar hsafe (hsafe sep hsep).2 hdigit hc]
  exact List.map_congr_left fun p _ => (quote_eq_flatMap safe p).symm

theorem quote_injective {safe : Text} (hsafe : Plain safe) {t u : Text}
    (h : quote safe t = quote safe u) : t = u := by
  have ht := unquote_quote hsafe t
  rw [h, unquote_quote hsafe] at ht
  exact (Option.some.inj ht).symm

/-- What is written as itself is only written for itself. -/
theorem eq_of_quote_eq {safe : Text} (hsafe : Plain safe) {t u : Text} (hu : quote safe u = u)
    (h : quote safe t = u) : t = u :=
  quote_injective hsafe (h.trans hu.symm)

end Url

end Codec
