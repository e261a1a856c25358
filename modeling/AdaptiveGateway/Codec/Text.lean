/-
Texts, byte strings and the two character codecs.

A text is a list of Unicode scalar values and a byte string a list of bytes.
`latin1` reads each byte as the character of the same number, so it is total and
injective, and `latin1Encode` undoes it wherever it is defined.  `utf8` and
`utf8Decode` are the core library's encoder and validating decoder, on lists.
-/
import Mathlib.Data.List.Basic
import Mathlib.Data.List.DropRight

namespace Codec

abbrev Text := List Char

abbrev Bytes := List UInt8

instance : Coe String Text := ⟨String.toList⟩

instance : LawfulBEq Text := inferInstance

/-! ## Character classes

Header names and values reach a program as Latin-1, so case and whitespace are
those of the characters up to U+00FF.  Beyond them only the Kelvin sign has an
ASCII letter for its lower case. -/

/-- `str.lower` of one character. -/
def lowerChar (c : Char) : Char :=
  if 65 ≤ c.toNat ∧ c.toNat ≤ 90 ∨ 192 ≤ c.toNat ∧ c.toNat ≤ 222 ∧ c.toNat ≠ 215 then
    Char.ofNat (c.toNat + 32)
  else if c.toNat = 0x212a then 'k'
  else c

def lower (t : Text) : Text := t.map lowerChar

theorem lowerChar_lowerChar (c : Char) : lowerChar (lowerChar c) = lowerChar c := by
  have hshift : ∀ n, n < 300 → (Char.ofNat n).toNat = n := by
    intro n hn
    rw [Char.ofNat, dif_pos (Or.inl (by omega))]
    rfl
  unfold lowerChar
  split
  next h =>
    have hc : (Char.ofNat (c.toNat + 32)).toNat = c.toNat + 32 := hshift _ (by omega)
    rw [hc, if_neg (by omega), if_neg (by omega)]
  next h =>
    split <;> rfl

theorem lower_lower (t : Text) : lower (lower t) = lower t := by
  rw [lower, lower, List.map_map]
  exact List.map_congr_left fun c _ => lowerChar_lowerChar c

/-- `str.upper` of an ASCII text. -/
def upper (t : Text) : Text := t.map Char.toUpper

/-- `str.isspace` of one character. -/
def isSpace (c : Char) : Bool :=
  decide (9 ≤ c.toNat ∧ c.toNat ≤ 13 ∨ 28 ≤ c.toNat ∧ c.toNat ≤ 32 ∨ c.toNat = 133 ∨ c.toNat = 160)

/-- `str.strip()`. -/
def strip (t : Text) : Text := ((t.dropWhile isSpace).reverse.dropWhile isSpace).reverse

/-- `str.split(sep)` at a single character. -/
def splitOn (sep : Char) : Text → List Text
  | [] => [[]]
  | c :: t =>
    if c = sep then [] :: splitOn sep t
    else
      match splitOn sep t with
      | [] => [[c]]
      | p :: ps => (c :: p) :: ps

theorem splitOn_of_not_mem {sep : Char} {t : Text} (h : sep ∉ t) : splitOn sep t = [t] := by
  induction t with
  | nil => rfl
  | cons c t ih =>
    have hc : c ≠ sep := fun hc => h (hc ▸ List.mem_cons_self)
    rw [splitOn, if_neg hc, ih fun ht => h (List.mem_cons_of_mem c ht)]

theorem splitOn_append {sep : Char} {t : Text} (h : sep ∉ t) (u : Text) :
    splitOn sep (t ++ sep :: u) = t :: splitOn sep u := by
  induction t with
  | nil => rw [List.nil_append, splitOn, if_pos rfl]
  | cons c t ih =>
    have hc : c ≠ sep := fun hc => h (hc ▸ List.mem_cons_self)
    rw [List.cons_append, splitOn, if_neg hc, ih fun ht => h (List.mem_cons_of_mem c ht)]

theorem splitOn_ne_nil (sep : Char) (t : Text) : splitOn sep t ≠ [] := by
  cases t with
  | nil => exact List.cons_ne_nil _ _
  | cons c t =>
    rw [splitOn]
    split
    · exact List.cons_ne_nil _ _
    · split <;> exact List.cons_ne_nil _ _

/-- A separator splits whatever stands around it. -/
theorem splitOn_append_sep (sep : Char) (t u : Text) :
    splitOn sep (t ++ sep :: u) = splitOn sep t ++ splitOn sep u := by
  induction t with
  | nil =>
    show splitOn sep (sep :: u) = [] :: splitOn sep u
    rw [splitOn, if_pos rfl]
  | cons c t ih =>
    rw [List.cons_append, splitOn, splitOn]
    by_cases hc : c = sep
    · rw [if_pos hc, if_pos hc, ih]
      rfl
    · rw [if_neg hc, if_neg hc, ih]
      cases hsplit : splitOn sep t with
      | nil => exact absurd hsplit (splitOn_ne_nil sep t)
      | cons p ps => rfl

/-- What has no separator stands in front of the first part. -/
theorem splitOn_append_of_not_mem {sep : Char} {t : Text} (h : sep ∉ t) (u : Text) :
    ∃ p ps, splitOn sep u = p :: ps ∧ splitOn sep (t ++ u) = (t ++ p) :: ps := by
  induction t with
  | nil =>
    obtain ⟨p, ps, hu⟩ := List.exists_cons_of_ne_nil (splitOn_ne_nil sep u)
    exact ⟨p, ps, hu, hu⟩
  | cons c t ih =>
    obtain ⟨p, ps, hu, htu⟩ := ih fun ht => h (List.mem_cons_of_mem c ht)
    have hc : c ≠ sep := fun hc => h (hc ▸ List.mem_cons_self)
    refine ⟨p, ps, hu, ?_⟩
    rw [List.cons_append, splitOn, if_neg hc, htu]
    rfl

/-- Parts are rewritten one by one, if the separator is kept and none is made. -/
theorem splitOn_flatMap {sep : Char} {f : Char → Text} (hsep : f sep = [sep])
    (hf : ∀ c, c ≠ sep → sep ∉ f c) (t : Text) :
    splitOn sep (t.flatMap f) = (splitOn sep t).map (·.flatMap f) := by
  induction t with
  | nil => rfl
  | cons c t ih =>
    rw [List.flatMap_cons, splitOn]
    by_cases hc : c = sep
    · rw [if_pos hc, hc, hsep, List.singleton_append, splitOn, if_pos rfl, ih]
      rfl
    · obtain ⟨p, ps, hp, happend⟩ := splitOn_append_of_not_mem (hf c hc) (t.flatMap f)
      obtain ⟨q, qs, hq⟩ := List.exists_cons_of_ne_nil (splitOn_ne_nil sep t)
      rw [ih, hq, List.map_cons] at hp
      obtain ⟨rfl, rfl⟩ := List.cons.inj hp
      rw [if_neg hc, happend, hq]
      rfl

/-- `sep.join(parts)` is split where it was joined. -/
theorem splitOn_join {sep : Char} {t : Text} {ts : List Text} (ht : sep ∉ t)
    (hts : ∀ u ∈ ts, sep ∉ u) : splitOn sep ([sep].intercalate (t :: ts)) = t :: ts := by
  induction ts generalizing t with
  | nil => simpa using splitOn_of_not_mem ht
  | cons u ts ih =>
    have hjoin : [sep].intercalate (t :: u :: ts) = t ++ sep :: [sep].intercalate (u :: ts) := by
      simp [List.intercalate]
    rw [hjoin, splitOn_append ht, ih (hts u List.mem_cons_self)
      fun v hv => hts v (List.mem_cons_of_mem u hv)]

/-- Where a space follows the separator, every part but the first keeps it. -/
theorem splitOn_intercalate {sep b : Char} (hne : b ≠ sep) {v : Text} {vs : List Text}
    (hv : sep ∉ v) (hvs : ∀ w ∈ vs, sep ∉ w) :
    splitOn sep ([sep, b].intercalate (v :: vs)) = v :: vs.map (b :: ·) := by
  induction vs generalizing v with
  | nil => simpa using splitOn_of_not_mem hv
  | cons w ws ih =>
    have hw : sep ∉ b :: w := by
      rw [List.mem_cons]
      rintro (h | h)
      · exact hne h.symm
      · exact hvs w List.mem_cons_self h
    have hjoin : [sep, b].intercalate (v :: w :: ws) =
        v ++ sep :: [sep, b].intercalate ((b :: w) :: ws) := by
      cases ws <;> simp [List.intercalate]
    rw [hjoin, splitOn_append hv, ih hw fun x hx => hvs x (List.mem_cons_of_mem w hx)]
    rfl

theorem not_mem_splitOn {sep : Char} (t : Text) : ∀ p ∈ splitOn sep t, sep ∉ p := by
  induction t with
  | nil => simp [splitOn]
  | cons c t ih =>
    rw [splitOn]
    split
    · intro p hp
      rcases List.mem_cons.mp hp with rfl | hp
      · exact List.not_mem_nil
      · exact ih p hp
    next hc =>
      split
      · intro p hp
        rw [List.mem_singleton.mp hp, List.mem_singleton]
        exact fun h => hc h.symm
      next q qs heq =>
        rw [heq] at ih
        intro p hp
        rcases List.mem_cons.mp hp with rfl | hp
        · rw [List.mem_cons]
          rintro (h | h)
          · exact hc h.symm
          · exact ih q List.mem_cons_self h
        · exact ih p (List.mem_cons_of_mem q hp)

/-- The parts hold no other characters than the whole. -/
theorem splitOn_subset {sep : Char} (t : Text) : ∀ p ∈ splitOn sep t, p ⊆ t := by
  induction t with
  | nil => simp [splitOn]
  | cons c t ih =>
    intro p hp
    rw [splitOn] at hp
    split at hp
    · rcases List.mem_cons.mp hp with rfl | hp
      · exact List.nil_subset _
      · exact List.subset_cons_of_subset c (ih p hp)
    · split at hp
      · rw [List.mem_singleton.mp hp]
        exact List.cons_subset_cons c (List.nil_subset t)
      next q qs heq =>
        rw [heq] at ih
        rcases List.mem_cons.mp hp with rfl | hp
        · exact List.cons_subset_cons c (ih q List.mem_cons_self)
        · exact List.subset_cons_of_subset c (ih p (List.mem_cons_of_mem q hp))

theorem strip_subset (t : Text) : strip t ⊆ t := by
  intro c hc
  have h := List.mem_reverse.mp hc
  exact (List.dropWhile_sublist _).subset (List.mem_reverse.mp ((List.dropWhile_sublist _).subset h))

theorem strip_cons_of_isSpace {c : Char} (h : isSpace c = true) (t : Text) :
    strip (c :: t) = strip t := by
  rw [strip, List.dropWhile_cons_of_pos h]
  rfl

theorem strip_strip (t : Text) : strip (strip t) = strip t := by
  have hhead : ∀ u : Text, u.dropWhile isSpace = u →
      (u.reverse.dropWhile isSpace).reverse.dropWhile isSpace =
        (u.reverse.dropWhile isSpace).reverse := by
    intro u hu
    cases u with
    | nil => rfl
    | cons c u =>
      have hc : ¬isSpace c = true := by
        intro hc
        rw [List.dropWhile_cons_of_pos hc] at hu
        have hlen := (List.dropWhile_sublist isSpace (l := u)).length_le
        rw [hu, List.length_cons] at hlen
        omega
      rw [List.reverse_cons, List.dropWhile_append]
      split
      next hnil => simp [hc]
      next hcons => simp [hc]
  have hidem : ∀ u : Text, (u.dropWhile isSpace).dropWhile isSpace = u.dropWhile isSpace :=
    fun u => List.dropWhile_idempotent isSpace u
  rw [strip, strip, hhead _ (hidem t), List.reverse_reverse, hidem]

/-- `sub in t`. -/
def hasSubstring (sub t : Text) : Bool := t.tails.any sub.isPrefixOf

theorem isPrefixOf_append_sep {sep : Char} {sub : Text} (h : sep ∉ sub) (t u : Text) :
    sub.isPrefixOf (t ++ sep :: u) = sub.isPrefixOf t := by
  induction sub generalizing t with
  | nil => simp
  | cons c sub ih =>
    have hc : c ≠ sep := fun hc => h (hc ▸ List.mem_cons_self)
    have hsub : sep ∉ sub := fun hmem => h (List.mem_cons_of_mem c hmem)
    cases t with
    | nil =>
      show (c == sep && sub.isPrefixOf u) = false
      rw [beq_false_of_ne hc, Bool.false_and]
    | cons d t =>
      show (c == d && sub.isPrefixOf (t ++ sep :: u)) = (c == d && sub.isPrefixOf t)
      rw [ih hsub t]

/-- A text without the separator lies on one side of it. -/
theorem hasSubstring_append_sep {sep : Char} {sub : Text} (h : sep ∉ sub) (hne : sub ≠ [])
    (t u : Text) : hasSubstring sub (t ++ sep :: u) = (hasSubstring sub t || hasSubstring sub u) := by
  induction t with
  | nil =>
    have hempty : sub.isPrefixOf [] = false := by
      cases sub with
      | nil => exact absurd rfl hne
      | cons c sub => rfl
    have hsep := isPrefixOf_append_sep h [] u
    rw [List.nil_append, hempty] at hsep
    simp [hasSubstring, List.tails, hsep, hempty]
  | cons c t ih =>
    have hhead := isPrefixOf_append_sep h (c :: t) u
    simp only [hasSubstring] at ih
    simp only [hasSubstring, List.cons_append, List.tails, List.any_cons] at hhead ⊢
    rw [hhead, ih, Bool.or_assoc]

/-- `c.isascii() and c.isalpha()`. -/
def isAsciiAlpha (c : Char) : Bool :=
  decide (65 ≤ c.toNat ∧ c.toNat ≤ 90 ∨ 97 ≤ c.toNat ∧ c.toNat ≤ 122)

def isAsciiDigit (c : Char) : Bool := decide (48 ≤ c.toNat ∧ c.toNat ≤ 57)

/-! ## Cutting -/

/-- `text.partition(sep)` without the separator. -/
def partition (sep : Char) (t : Text) : Text × Text :=
  (t.takeWhile (· != sep), (t.dropWhile (· != sep)).drop 1)

theorem partition_of_not_mem {sep : Char} {t : Text} (h : sep ∉ t) : partition sep t = (t, []) := by
  have hall : ∀ c ∈ t, (c != sep) = true := fun c hc => bne_iff_ne.mpr fun heq => h (heq ▸ hc)
  rw [partition, List.takeWhile_eq_self_iff.mpr hall, List.dropWhile_eq_nil_iff.mpr hall]
  rfl

theorem partition_append {sep : Char} {t : Text} (h : sep ∉ t) (u : Text) :
    partition sep (t ++ sep :: u) = (t, u) := by
  have hall : ∀ c ∈ t, (c != sep) = true := fun c hc => bne_iff_ne.mpr fun heq => h (heq ▸ hc)
  rw [partition, List.takeWhile_append_of_pos hall, List.dropWhile_append_of_pos hall]
  simp

theorem partition_append_of_not_mem {sep : Char} {t : Text} (h : sep ∉ t) (u : Text) :
    partition sep (t ++ u) = (t ++ (partition sep u).1, (partition sep u).2) := by
  have hall : ∀ c ∈ t, (c != sep) = true := fun c hc => bne_iff_ne.mpr fun heq => h (heq ▸ hc)
  rw [partition, List.takeWhile_append_of_pos hall, List.dropWhile_append_of_pos hall]
  rfl

theorem partition_append_of_mem {sep : Char} {t : Text} (h : sep ∈ t) (u : Text) :
    partition sep (t ++ u) = ((partition sep t).1, (partition sep t).2 ++ u) := by
  obtain ⟨v, w, rfl, hv⟩ := List.eq_append_cons_of_mem h
  rw [List.append_assoc, List.cons_append, partition_append hv, partition_append hv]

theorem mem_of_mem_partition {sep c : Char} {t : Text}
    (h : c ∈ (partition sep t).1 ∨ c ∈ (partition sep t).2) : c ∈ t := by
  rcases h with h | h
  · exact (List.takeWhile_prefix _).subset h
  · exact (List.dropWhile_suffix _).subset (List.mem_of_mem_drop h)

theorem not_mem_partition {sep : Char} (t : Text) : sep ∉ (partition sep t).1 := by
  intro h
  have hne := List.mem_takeWhile_imp h
  simp at hne

/-! ## Latin-1 -/

/-- `bytes.decode("latin-1")`. -/
def latin1 (b : Bytes) : Text := b.map fun x => Char.ofNat x.toNat

/-- `str.encode("latin-1")`, which refuses characters above U+00FF. -/
def latin1Encode : Text → Option Bytes
  | [] => some []
  | c :: t => if c.toNat < 256 then (latin1Encode t).map (UInt8.ofNat c.toNat :: ·) else none

theorem toNat_ofNat_byte (x : UInt8) : (Char.ofNat x.toNat).toNat = x.toNat := by
  have hx : x.toNat < 256 := x.toNat_lt
  rw [Char.ofNat, dif_pos (Or.inl (by omega))]
  rfl

theorem latin1Encode_latin1 (b : Bytes) : latin1Encode (latin1 b) = some b := by
  induction b with
  | nil => rfl
  | cons x b ih =>
    have hx : x.toNat < 256 := x.toNat_lt
    have ih' : latin1Encode (List.map (fun x => Char.ofNat x.toNat) b) = some b := ih
    simp [latin1, latin1Encode, toNat_ofNat_byte, hx, ih']

/-- Only the zero byte decodes to U+0000. -/
theorem nul_mem_latin1 (b : Bytes) : '\x00' ∈ latin1 b ↔ (0 : UInt8) ∈ b := by
  simp only [latin1, List.mem_map]
  constructor
  · rintro ⟨x, hx, he⟩
    have h0 : x.toNat = 0 := by
      rw [← toNat_ofNat_byte x, he]
      rfl
    obtain rfl : x = 0 := UInt8.toNat_inj.mp h0
    exact hx
  · intro h
    exact ⟨0, h, rfl⟩

/-! ## UTF-8 -/

/-- `str.encode()`. -/
def utf8 (t : Text) : Bytes := t.flatMap String.utf8EncodeChar

/-- `bytes.decode()`, which refuses what is not UTF-8. -/
def utf8Decode (b : Bytes) : Option Text := b.toByteArray.utf8Decode?.map Array.toList

theorem utf8Decode_utf8 (t : Text) : utf8Decode (utf8 t) = some t := by
  have h : (utf8 t).toByteArray = t.utf8Encode := rfl
  rw [utf8Decode, h, List.utf8Decode?_utf8Encode]
  simp

theorem utf8_of_utf8Decode {b : Bytes} {t : Text} (h : utf8Decode b = some t) : utf8 t = b := by
  obtain ⟨a, ha, rfl⟩ := Option.map_eq_some_iff.mp h
  have hsome : b.toByteArray.utf8Decode?.isSome = true := by rw [ha]; rfl
  have hget : b.toByteArray.utf8Decode?.get hsome = a := Option.get_of_eq_some hsome ha
  have hencode : (b.toByteArray.utf8Decode?.get hsome).toList.utf8Encode = b.toByteArray :=
    ByteArray.utf8Encode_get_utf8Decode?
  rw [hget] at hencode
  have hbytes : (utf8 a.toList).toByteArray = b.toByteArray := hencode
  exact List.toByteArray_inj.mp hbytes

/-- A character takes a byte at least. -/
theorem length_le_length_utf8 (t : Text) : t.length ≤ (utf8 t).length := by
  induction t with
  | nil => exact Nat.le_refl 0
  | cons c t ih =>
    have hc := c.utf8Size_pos
    rw [utf8, List.flatMap_cons, List.length_append, String.length_utf8EncodeChar, ← utf8,
      List.length_cons]
    omega

theorem utf8_injective {t u : Text} (h : utf8 t = utf8 u) : t = u := by
  have ht := utf8Decode_utf8 t
  rw [h, utf8Decode_utf8] at ht
  exact (Option.some.inj ht).symm

end Codec
