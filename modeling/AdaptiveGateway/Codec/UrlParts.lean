/-
Addresses put together from parts.

`urlsplit` of a scheme, an authority and a rest gives back the scheme and the
authority, and cuts the rest at its first `#` and its first `?`.  Conversely an
address whose split has a scheme and an authority is such a composition, so that
what is appended to it only changes the rest.
-/
import AdaptiveGateway.Codec.Url
import Mathlib.Data.List.Basic

namespace Codec

namespace Url

/-! ## The parts -/

/-- What `urlsplit` keeps of a text. -/
def clean (t : Text) : Text := t.filter (!isUnsafe ·)

/-- The split, once the scheme and the authority are off. -/
def ofRest (scheme netloc rest : Text) : Split :=
  let f := partition '#' rest
  let q := partition '?' f.1
  ⟨scheme, netloc, q.1, q.2, f.2⟩

theorem ofRest_of_not_mem {rest : Text} (hmark : '?' ∉ rest) (hhash : '#' ∉ rest)
    (scheme netloc : Text) : ofRest scheme netloc rest = ⟨scheme, netloc, rest, [], []⟩ := by
  rw [ofRest, partition_of_not_mem hhash, partition_of_not_mem hmark]

def isDelimiter (c : Char) : Bool := c == '?' || c == '#'

/-- The path of an address is the rest up to its first delimiter. -/
theorem ofRest_path (scheme netloc rest : Text) :
    (ofRest scheme netloc rest).path = rest.takeWhile (!isDelimiter ·) := by
  show (partition '?' (partition '#' rest).1).1 = _
  simp only [partition, List.takeWhile_takeWhile, isDelimiter]
  congr 1
  funext c
  by_cases hmark : c = '?' <;> by_cases hhash : c = '#' <;> simp [hmark, hhash, bne]

/-- The split of a text without what `urlsplit` removes. -/
def splitClean (netlocOk : Text → Bool) (t : Text) : Option Split :=
  let s := splitScheme t
  let n := splitNetloc s.2
  if checkNetloc netlocOk n.1 then some (ofRest s.1 n.1 n.2) else none

theorem urlsplit_eq (netlocOk : Text → Bool) (url : Text) :
    urlsplit netlocOk url = splitClean netlocOk (clean (url.dropWhile isC0OrSpace)) := rfl

/-- A text that `splitScheme` takes for a scheme. -/
def IsScheme (head : Text) : Prop :=
  ((head.take 1).any isAsciiAlpha && head.all isSchemeChar) = true

theorem IsScheme.noColon {head : Text} (h : IsScheme head) : ':' ∉ head := by
  intro hmem
  have hchar := List.all_eq_true.mp (Bool.and_eq_true_iff.mp h).2 ':' hmem
  exact absurd hchar (by decide)

/-- The rest is empty or begins where an authority ends. -/
def IsRest (rest : Text) : Prop := ∀ c ∈ rest.head?, isNetlocEnd c = true

theorem splitScheme_append {head : Text} (h : IsScheme head) (t : Text) :
    splitScheme (head ++ ':' :: t) = (lower head, t) := by
  have hall : ∀ c ∈ head, (c != ':') = true := fun c hc =>
    bne_iff_ne.mpr fun heq => h.noColon (heq ▸ hc)
  have htake : (head ++ ':' :: t).takeWhile (· != ':') = head := by
    rw [List.takeWhile_append_of_pos hall]
    simp
  unfold splitScheme
  simp only [htake, List.drop_left]
  exact if_pos h

theorem splitNetloc_append {netloc rest : Text} (h : netloc.all (!isNetlocEnd ·) = true)
    (hrest : IsRest rest) : splitNetloc ('/' :: '/' :: (netloc ++ rest)) = (netloc, rest) := by
  have hall := List.all_eq_true.mp h
  rw [splitNetloc, List.takeWhile_append_of_pos hall, List.dropWhile_append_of_pos hall]
  cases rest with
  | nil => simp
  | cons c rest =>
    have hc : isNetlocEnd c = true := hrest c rfl
    simp [hc]

/-- The split of a composition. -/
theorem splitClean_append (netlocOk : Text → Bool) {head netloc rest : Text} (hhead : IsScheme head)
    (hnetloc : netloc.all (!isNetlocEnd ·) = true) (hrest : IsRest rest) :
    splitClean netlocOk (head ++ ':' :: '/' :: '/' :: (netloc ++ rest)) =
      if checkNetloc netlocOk netloc then some (ofRest (lower head) netloc rest) else none := by
  rw [splitClean, splitScheme_append hhead, splitNetloc_append hnetloc hrest]

theorem splitScheme_some {t : Text} (h : (splitScheme t).1 ≠ []) :
    ∃ head, IsScheme head ∧ t = head ++ ':' :: (splitScheme t).2 ∧
      (splitScheme t).1 = lower head := by
  have hdrop : t.drop (t.takeWhile (· != ':')).length = t.dropWhile (· != ':') := by
    conv => lhs; arg 2; rw [← List.takeWhile_append_dropWhile (p := (· != ':')) (l := t)]
    exact List.drop_left
  unfold splitScheme at h ⊢
  simp only [hdrop] at h ⊢
  split at h
  next rest hrest =>
    split at h
    next hscheme =>
      refine ⟨t.takeWhile (· != ':'), hscheme, ?_, ?_⟩
      · simp only [hscheme, if_true]
        rw [← hrest, List.takeWhile_append_dropWhile]
      · simp only [hscheme, if_true]
    next => exact absurd rfl h
  next => exact absurd rfl h

theorem splitNetloc_some {t : Text} (h : (splitNetloc t).1 ≠ []) :
    t = '/' :: '/' :: ((splitNetloc t).1 ++ (splitNetloc t).2) ∧
      (splitNetloc t).1.all (!isNetlocEnd ·) = true ∧ IsRest (splitNetloc t).2 := by
  unfold splitNetloc at h ⊢
  split at h
  next u =>
    refine ⟨?_, ?_, ?_⟩
    · simp only [List.takeWhile_append_dropWhile]
    · exact List.all_takeWhile
    · intro c hc
      have hfirst := List.head?_dropWhile_not (!isNetlocEnd ·) u
      rw [Option.mem_def.mp hc] at hfirst
      simpa using hfirst
  next => exact absurd rfl h

/-- A split with a scheme and an authority comes from a composition. -/
theorem splitClean_some {netlocOk : Text → Bool} {t : Text} {parsed : Split}
    (h : splitClean netlocOk t = some parsed) (hscheme : parsed.scheme ≠ [])
    (hnetloc : parsed.netloc ≠ []) :
    ∃ head rest, t = head ++ ':' :: '/' :: '/' :: (parsed.netloc ++ rest) ∧ IsScheme head ∧
      parsed.netloc.all (!isNetlocEnd ·) = true ∧ IsRest rest ∧
      parsed = ofRest (lower head) parsed.netloc rest ∧
      checkNetloc netlocOk parsed.netloc = true := by
  unfold splitClean at h
  dsimp only at h
  split at h
  next hcheck =>
    cases h
    obtain ⟨head, hhead, ht, hlower⟩ := splitScheme_some hscheme
    obtain ⟨hrest, hall, hend⟩ := splitNetloc_some hnetloc
    refine ⟨head, (splitNetloc (splitScheme t).2).2, ?_, hhead, hall, hend, ?_, hcheck⟩
    · rw [hrest] at ht
      exact ht
    · rw [← hlower]
      rfl
  next => cases h

/-! ## Appending to an address -/

theorem clean_append (t u : Text) : clean (t ++ u) = clean t ++ clean u := List.filter_append _ _

theorem clean_replicate (n : Nat) : clean (List.replicate n '/') = List.replicate n '/' := by
  rw [clean, List.filter_eq_self]
  intro c hc
  rw [(List.mem_replicate.mp hc).2]
  decide

/-- Leading blanks go first, if there is something else. -/
theorem dropWhile_append_of_ne {p : Char → Bool} {t : Text} (h : t.dropWhile p ≠ []) (u : Text) :
    (t ++ u).dropWhile p = t.dropWhile p ++ u := by
  rw [List.dropWhile_append]
  simp [h]

/-- An authority does not end in a slash, so slashes at the end of an address belong to
its rest. -/
theorem slashes_of_append {front netloc rest t : Text} {n : Nat} (hne : netloc ≠ [])
    (hall : netloc.all (!isNetlocEnd ·) = true)
    (h : t ++ List.replicate n '/' = front ++ (netloc ++ rest)) :
    ∃ rest', t = front ++ (netloc ++ rest') ∧ rest = rest' ++ List.replicate n '/' := by
  rw [← List.append_assoc] at h
  rcases List.append_eq_append_iff.mp h with ⟨a, hfront, hslashes⟩ | ⟨c, ht, hrest⟩
  · cases a using List.reverseRecOn with
    | nil => exact ⟨[], by simp [hfront], by simpa using hslashes.symm⟩
    | append_singleton a c =>
      -- the last character would be both in the authority and one of the slashes
      have hmem : c ∈ List.replicate n '/' := by
        rw [hslashes]
        simp
      have hc : c = '/' := (List.mem_replicate.mp hmem).2
      have hlast : (front ++ netloc).getLast? = some c := by
        rw [hfront, ← List.append_assoc, List.getLast?_concat]
      rw [List.getLast?_append_of_ne_nil _ hne] at hlast
      have hend := List.all_eq_true.mp hall c (List.mem_of_getLast? hlast)
      rw [hc] at hend
      exact absurd hend (by decide)
  · exact ⟨c, by rw [ht, List.append_assoc], hrest⟩

/-- A delimiter is neither a blank nor removed. -/
theorem mem_clean_dropWhile {t : Text} {c : Char} (hc : c = '?' ∨ c = '#') (h : c ∈ t) :
    c ∈ clean (t.dropWhile isC0OrSpace) := by
  have hblank : ¬isC0OrSpace c = true := by rcases hc with rfl | rfl <;> decide
  have hkept : (!isUnsafe c) = true := by rcases hc with rfl | rfl <;> decide
  refine List.mem_filter.mpr ⟨?_, hkept⟩
  rw [← List.takeWhile_append_dropWhile (p := isC0OrSpace) (l := t), List.mem_append] at h
  rcases h with h | h
  · exact absurd (List.mem_takeWhile_imp h) hblank
  · exact h

/-- A delimiter of an address stands in its rest. -/
theorem delimiter_mem {head netloc rest : Text} (hhead : IsScheme head)
    (hall : netloc.all (!isNetlocEnd ·) = true) {c : Char} (hc : c = '?' ∨ c = '#')
    (h : c ∈ (head ++ [':', '/', '/']) ++ (netloc ++ rest)) : c ∈ rest := by
  have hends : isNetlocEnd c = true := by rcases hc with rfl | rfl <;> decide
  simp only [List.mem_append] at h
  rcases h with (h | h) | h | h
  · have hchar := List.all_eq_true.mp (Bool.and_eq_true_iff.mp hhead).2 c h
    rcases hc with rfl | rfl <;> exact absurd hchar (by decide)
  · rcases hc with rfl | rfl <;> exact absurd h (by decide)
  · have hnot := List.all_eq_true.mp hall c h
    rw [hends] at hnot
    cases hnot
  · exact h

/-- A rest ends in a slash if the address does, as an authority does not. -/
theorem getLast?_append_rest {front netloc rest : Text} (hne : netloc ≠ [])
    (hall : netloc.all (!isNetlocEnd ·) = true) :
    (front ++ (netloc ++ rest)).getLast? = some '/' ↔ rest.getLast? = some '/' := by
  rw [List.getLast?_append, List.getLast?_append]
  cases hrest : rest.getLast? with
  | some c => rfl
  | none =>
    obtain ⟨c, hc⟩ := Option.ne_none_iff_exists'.mp (mt List.getLast?_eq_none_iff.mp hne)
    have hend := List.all_eq_true.mp hall c (List.mem_of_getLast? hc)
    rw [hc]
    refine ⟨fun h => ?_, fun h => by cases h⟩
    rw [Option.some.inj h] at hend
    exact absurd hend (by decide)

/-- What follows an address in place of the slashes at its end only changes the rest. -/
theorem urlsplit_append {netlocOk : Text → Bool} {t : Text} {n : Nat} {parsed : Split}
    (h : urlsplit netlocOk (t ++ List.replicate n '/') = some parsed) (hscheme : parsed.scheme ≠ [])
    (hnetloc : parsed.netloc ≠ []) :
    ∃ rest, rest ⊆ t ∧ (∀ c, c = '?' ∨ c = '#' → c ∈ t → c ∈ rest) ∧
      parsed = ofRest parsed.scheme parsed.netloc (rest ++ List.replicate n '/') ∧
      urlsplit netlocOk t = some (ofRest parsed.scheme parsed.netloc rest) ∧
      ((clean t).getLast? = some '/' ↔ rest.getLast? = some '/') ∧
      ∀ more, urlsplit netlocOk (t ++ '/' :: more) =
        some (ofRest parsed.scheme parsed.netloc (rest ++ '/' :: clean more)) := by
  rw [urlsplit_eq] at h
  have hne : t.dropWhile isC0OrSpace ≠ [] := by
    intro hnil
    have hslashes : clean ((t ++ List.replicate n '/').dropWhile isC0OrSpace) =
        List.replicate n '/' := by
      rw [List.dropWhile_append, hnil]
      cases n with
      | zero => rfl
      | succ n => exact clean_replicate (n + 1)
    rw [hslashes] at h
    obtain ⟨head, rest, ht, -⟩ := splitClean_some h hscheme hnetloc
    have hcolon : ':' ∈ List.replicate n '/' := by
      rw [ht]
      simp
    exact absurd (List.mem_replicate.mp hcolon).2 (by decide)
  rw [dropWhile_append_of_ne hne, clean_append, clean_replicate] at h
  obtain ⟨head, rest, ht, hhead, hall, hrest, hparsed, hcheck⟩ := splitClean_some h hscheme hnetloc
  have hfront : clean (t.dropWhile isC0OrSpace) ++ List.replicate n '/' =
      (head ++ [':', '/', '/']) ++ (parsed.netloc ++ rest) := by
    rw [ht]
    simp
  obtain ⟨rest', hclean, rfl⟩ := slashes_of_append hnetloc hall hfront
  have hsch : lower head = parsed.scheme := by rw [hparsed]; rfl
  have hstart : IsRest rest' := by
    cases rest' with
    | nil => exact fun c hc => by cases hc
    | cons c rest' => exact fun d hd => hrest d hd
  -- the address with another rest
  have hsplit : ∀ u, IsRest (rest' ++ clean u) → urlsplit netlocOk (t ++ u) =
      some (ofRest parsed.scheme parsed.netloc (rest' ++ clean u)) := by
    intro u hu
    have happend := splitClean_append netlocOk hhead hall hu
    rw [if_pos hcheck] at happend
    rw [urlsplit_eq, dropWhile_append_of_ne hne, clean_append, hclean, ← hsch, ← happend]
    simp
  refine ⟨rest', ?_, ?_, by rw [← hsch]; exact hparsed, ?_, ?_, fun more => ?_⟩
  · intro c hc
    have hmem : c ∈ clean (t.dropWhile isC0OrSpace) := by
      rw [hclean]
      simp [hc]
    exact (List.dropWhile_suffix _).subset (List.mem_of_mem_filter hmem)
  · intro c hc hmem
    exact delimiter_mem hhead hall hc (hclean ▸ mem_clean_dropWhile hc hmem)
  · have hnone := hsplit [] (by simpa [clean] using hstart)
    simpa [clean] using hnone
  · have hsame : (clean t).getLast? = (clean (t.dropWhile isC0OrSpace)).getLast? := by
      conv_lhs => rw [← List.takeWhile_append_dropWhile (p := isC0OrSpace) (l := t), clean_append]
      exact List.getLast?_append_of_ne_nil _ (by rw [hclean]; simp)
    rw [hsame, hclean]
    exact getLast?_append_rest hnetloc hall
  · refine hsplit ('/' :: more) ?_
    cases rest' with
    | nil => exact fun c hc => by cases hc; decide
    | cons c rest' => exact fun d hd => hstart d hd

end Url

end Codec
