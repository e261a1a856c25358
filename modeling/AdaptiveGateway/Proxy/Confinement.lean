/-
Paths under a base.

`build_target` writes a client's path as one part of an address.  The encoding can be read
back, has nothing in it that an address is cut at, and no segment that means another
directory.

The base comes before it as the operator has written it, while `validate_upstream_url` has
looked at its parts.  These do not show a `?` or `#` with nothing behind it, nor a line
break behind a slash, and then the path is not where it should be.  `target_confined_iff`
says which bases are sound.
-/
import AdaptiveGateway.Proxy.Target

namespace AdaptiveGateway
namespace Proxy

open Codec
open Url (urlsplit clean ofRest unquote quote WellEscaped)

/-! ## The encoding of a path -/

/-- The characters that `quote` is told to keep, and those that it always keeps. -/
def Kept (c : Char) : Prop := c ∈ SAFE ∨ isAsciiAlpha c = true ∨ isAsciiDigit c = true

/-- The encoding of a path names it and nothing else. -/
structure Inert (path encoded : Text) : Prop where
  reads : unquote encoded = some path
  escaped : WellEscaped Kept encoded
  printable : ∀ c ∈ encoded, 32 < c.toNat ∧ c.toNat < 127
  delimiters : '?' ∉ encoded ∧ '#' ∉ encoded ∧ '\\' ∉ encoded
  segments : ∀ part ∈ splitOn '/' encoded, part ≠ "." ∧ part ≠ ".."

section Encoding

variable {cfg : Config} {base path query target : Text}

theorem kept_of_unreserved {c : Char} (h : Url.isUnreserved c = true) : Kept c := by
  simp only [Url.isUnreserved, Bool.or_eq_true, beq_iff_eq] at h
  rcases h with ((((h | h) | rfl) | rfl) | rfl) | rfl
  · exact .inr (.inl h)
  · exact .inr (.inr h)
  · exact .inl (by decide)
  · exact .inl (by decide)
  · exact .inl (by decide)
  · exact .inl (by decide)

theorem wellEscaped_mono {p q : Char → Prop} (hpq : ∀ c, p c → q c) {t : Text}
    (h : WellEscaped p t) : WellEscaped q t := by
  induction h with
  | nil => exact .nil
  | plain hc _ ih => exact .plain (hpq _ hc) ih
  | escape hh hl _ ih => exact .escape hh hl ih

theorem mem_encoded {c : Char} (h : c ∈ quote SAFE path) : Kept c ∨ c = '%' := by
  rcases Url.mem_quote h with h | h | h
  · exact .inl (kept_of_unreserved h)
  · exact .inl (.inl h)
  · exact .inr h

theorem Kept.printable {c : Char} (h : Kept c) : 32 < c.toNat ∧ c.toNat < 127 := by
  have hsafe : (SAFE.all fun c => decide (32 < c.toNat ∧ c.toNat < 127)) = true := by decide
  rcases h with h | h | h
  · exact of_decide_eq_true (List.all_eq_true.mp hsafe c h)
  · rw [isAsciiAlpha, decide_eq_true_eq] at h
    omega
  · rw [isAsciiDigit, decide_eq_true_eq] at h
    omega

theorem Kept.ne {c : Char} (h : Kept c) : c ≠ '?' ∧ c ≠ '#' ∧ c ≠ '\\' := by
  refine ⟨?_, ?_, ?_⟩ <;> rintro rfl <;> revert h <;> unfold Kept <;> decide

/-- What `build_target` looks for in a path. -/
def Escapes (path : Text) : Prop :=
  '\\' ∈ path ∨ ("." : Text) ∈ splitOn '/' path ∨ (".." : Text) ∈ splitOn '/' path

theorem buildTarget_of_escapes (h : Escapes path) : buildTarget cfg base path query = none := by
  have hbad : (path.contains '\\' || (splitOn '/' path).any fun part =>
      [("." : Text), ".."].contains part) = true := by
    rw [Bool.or_eq_true, List.contains_iff_mem, List.any_eq_true]
    rcases h with h | h | h
    · exact .inl h
    · exact .inr ⟨".", h, by decide⟩
    · exact .inr ⟨"..", h, by decide⟩
  unfold buildTarget
  rw [if_pos hbad]
  exact ite_self none

theorem not_escapes_of_some (h : buildTarget cfg base path query = some target) :
    ¬Escapes path := by
  intro hescapes
  rw [buildTarget_of_escapes hescapes] at h
  cases h

/-- A segment is a dot segment if its encoding is one. -/
theorem inert_quote (h : ¬Escapes path) : Inert path (quote SAFE path) where
  reads := Url.unquote_quote plain_safe path
  escaped := by
    refine wellEscaped_mono (fun c hc => ?_) (Url.wellEscaped_quote SAFE path)
    exact hc.elim kept_of_unreserved .inl
  printable c hc := by
    rcases mem_encoded hc with hc | rfl
    · exact hc.printable
    · decide
  delimiters := by
    refine ⟨fun hc => ?_, fun hc => ?_, fun hc => ?_⟩ <;> rcases mem_encoded hc with hc | hc
    · exact hc.ne.1 rfl
    · exact absurd hc (by decide)
    · exact hc.ne.2.1 rfl
    · exact absurd hc (by decide)
    · exact hc.ne.2.2 rfl
    · exact absurd hc (by decide)
  segments := by
    rw [Url.splitOn_quote plain_safe (by decide) (by decide)]
    intro part hpart
    obtain ⟨segment, hsegment, rfl⟩ := List.mem_map.mp hpart
    refine ⟨fun hdot => h (.inr (.inl ?_)), fun hdot => h (.inr (.inr ?_))⟩
    · rwa [← Url.eq_of_quote_eq plain_safe (by decide) hdot]
    · rwa [← Url.eq_of_quote_eq plain_safe (by decide) hdot]

/-- Every path that is accepted is written behind its base as an encoding that is inert, no
two paths in the same way; and no path is accepted that has a backslash or a dot segment. -/
theorem path_encoding (cfg : Config) (base path query : Text) :
    (∀ target, buildTarget cfg base path query = some target →
      target = rstripSlash base ++ '/' :: (quote SAFE path ++
        if query.isEmpty then [] else '?' :: query) ∧ Inert path (quote SAFE path)) ∧
    (∀ path', quote SAFE path' = quote SAFE path → path' = path) ∧
    (Escapes path → buildTarget cfg base path query = none) :=
  ⟨fun _ htarget => ⟨(buildTarget_some htarget).2, inert_quote (not_escapes_of_some htarget)⟩,
    fun _ => Url.quote_injective plain_safe, buildTarget_of_escapes⟩

/-- An authority, a fragment, a query and a letter that is not ASCII stay parts of the path, and
the path above it is out of reach. -/
theorem path_encoding_mock :
    buildTarget mockConfig "https://api.test/v1" "//evil.test/é?x=1#y" "a=1" =
        some "https://api.test/v1///evil.test/%C3%A9%3Fx=1%23y?a=1".toList ∧
      Inert "//evil.test/é?x=1#y" "//evil.test/%C3%A9%3Fx=1%23y" ∧
      buildTarget mockConfig "https://api.test/v1" "items/../admin" [] = none := by
  obtain ⟨haccepted, -, -⟩ :=
    path_encoding mockConfig "https://api.test/v1" "//evil.test/é?x=1#y" "a=1"
  obtain ⟨-, -, hrefused⟩ := path_encoding mockConfig "https://api.test/v1" "items/../admin" []
  have htarget : buildTarget mockConfig "https://api.test/v1" "//evil.test/é?x=1#y" "a=1" =
      some "https://api.test/v1///evil.test/%C3%A9%3Fx=1%23y?a=1".toList := by
    decide +kernel
  have hquote : quote SAFE "//evil.test/é?x=1#y" = "//evil.test/%C3%A9%3Fx=1%23y".toList := by
    decide +kernel
  obtain ⟨-, hinert⟩ := haccepted _ htarget
  rw [hquote] at hinert
  exact ⟨htarget, hinert, hrefused (.inr (.inr (by decide +kernel)))⟩

end Encoding

/-! ## The base of a target -/

/-- Splitting the target shows the base, and under its path the encoded path of the client. -/
def Confined (cfg : Config) (base path query target : Text) : Prop :=
  ∃ b t, urlsplit cfg.netlocOk base = some b ∧ urlsplit cfg.netlocOk target = some t ∧
    t.scheme = b.scheme ∧ t.netloc = b.netloc ∧
    t.path = rstripSlash b.path ++ '/' :: quote SAFE path ∧ t.query = query ∧ t.fragment = []

/-- A base in which no delimiter is left over, and whose slashes at the end are all at the
end: `urlsplit` removes tabs and line breaks, and `rstrip` stops at them. -/
def Sound (base : Text) : Prop :=
  '?' ∉ base ∧ '#' ∉ base ∧ (clean (rstripSlash base)).getLast? ≠ some '/'

instance (base : Text) : Decidable (Sound base) := instDecidableAnd

section Confined

variable {cfg : Config} {base path query target : Text}

theorem rstripSlash_eq_self_iff (t : Text) : rstripSlash t = t ↔ t.getLast? ≠ some '/' := by
  cases t using List.reverseRecOn with
  | nil => exact iff_of_true rfl (by simp)
  | append_singleton t c =>
    rw [List.getLast?_concat]
    by_cases hc : c = '/'
    · refine iff_of_false (fun h => ?_) (by simp [hc])
      have hlength := congrArg List.length h
      rw [hc, show ['/'] = List.replicate 1 '/' from rfl, rstripSlash_replicate,
        List.length_append] at hlength
      obtain ⟨n, hn⟩ := rstripSlash_append t
      have hle := congrArg List.length hn
      rw [List.length_append] at hle
      simp only [List.length_replicate] at hlength hle
      omega
    · refine iff_of_true ?_ (by simpa using hc)
      rw [rstripSlash, List.reverse_append, List.reverse_singleton, List.singleton_append,
        List.dropWhile_cons_of_neg (by simpa using hc), List.reverse_cons, List.reverse_reverse]

/-- What follows the base in a target. -/
theorem tail_plain (path : Text) (hquery : '#' ∉ query ∧ clean query = query) :
    '#' ∉ '/' :: (quote SAFE path ++ if query.isEmpty then [] else '?' :: query) ∧
      clean (quote SAFE path ++ if query.isEmpty then [] else '?' :: query) =
        quote SAFE path ++ if query.isEmpty then [] else '?' :: query := by
  have hhash := not_mem_quote (.inr rfl) path
  cases query with
  | nil =>
    show '#' ∉ '/' :: (quote SAFE path ++ []) ∧ clean (quote SAFE path ++ []) = quote SAFE path ++ []
    rw [List.append_nil, List.mem_cons, not_or]
    exact ⟨⟨by decide, hhash⟩, quote_clean path⟩
  | cons c query =>
    show '#' ∉ '/' :: (quote SAFE path ++ '?' :: c :: query) ∧
      clean (quote SAFE path ++ '?' :: c :: query) = quote SAFE path ++ '?' :: c :: query
    refine ⟨?_, ?_⟩
    · rw [List.mem_cons, List.mem_append, List.mem_cons, not_or, not_or, not_or]
      exact ⟨by decide, hhash, by decide, hquery.1⟩
    · rw [Url.clean_append, quote_clean]
      show quote SAFE path ++ '?' :: clean (c :: query) = _
      rw [hquery.2]

/-- A `#` that is left in the base makes a fragment of the path, and a `?` a query. -/
theorem undelimited_of_confined (hquery : '#' ∉ query ∧ clean query = query)
    (h : buildTarget cfg base path query = some target)
    (hconfined : Confined cfg base path query target) : '?' ∉ base ∧ '#' ∉ base := by
  obtain ⟨hvalid, rfl⟩ := buildTarget_some h
  obtain ⟨parsed, rest, n, -, hdelim, -, -, -, hmore⟩ := urlsplit_target hvalid
  obtain ⟨b, t, -, ht, -, -, -, hseen, hfragment⟩ := hconfined
  obtain ⟨hhash, hclean⟩ := tail_plain path hquery
  rw [hmore, hclean] at ht
  cases ht
  rw [← hdelim '?' (.inl rfl), ← hdelim '#' (.inr rfl)]
  have hnohash : '#' ∉ rest := fun hmem => by
    rw [ofRest, partition_append_of_mem hmem] at hfragment
    exact absurd hfragment (by simp)
  refine ⟨fun hmem => ?_, hnohash⟩
  rw [ofRest, partition_append_of_not_mem hnohash, partition_of_not_mem hhash,
    partition_append_of_mem hmem] at hseen
  -- the query would be longer than it is
  have hlength := congrArg List.length hseen
  cases query with
  | nil => simp at hlength
  | cons c query =>
    simp only [List.isEmpty_cons, Bool.false_eq_true, if_false, List.length_append,
      List.length_cons] at hlength
    omega

/-- The path is under that of the base, if that ends where its slashes begin. -/
theorem confined_iff_of_undelimited (hbase : '?' ∉ base ∧ '#' ∉ base)
    (hquery : '#' ∉ query ∧ clean query = query)
    (h : buildTarget cfg base path query = some target) :
    Confined cfg base path query target ↔ (clean (rstripSlash base)).getLast? ≠ some '/' := by
  obtain ⟨parsed, rest, n, hsplit, hdelim, hparsed, hstripped, hlast, -⟩ :=
    urlsplit_target (buildTarget_some h).1
  have hrest : ∀ m, '?' ∉ rest ++ List.replicate m '/' ∧ '#' ∉ rest ++ List.replicate m '/' := by
    intro m
    simp only [List.mem_append, not_or]
    refine ⟨⟨fun hc => hbase.1 ((hdelim _ (.inl rfl)).mp hc), fun hc => ?_⟩,
      fun hc => hbase.2 ((hdelim _ (.inr rfl)).mp hc), fun hc => ?_⟩ <;>
      exact absurd (List.mem_replicate.mp hc).2 (by decide)
  have hpath : parsed.path = rest ++ List.replicate n '/' := by
    rw [hparsed, Url.ofRest_of_not_mem (hrest n).1 (hrest n).2]
  obtain ⟨b, hb, ht, -⟩ := buildTarget_parts hbase hquery h
  have hnone := hrest 0
  rw [show List.replicate 0 '/' = [] from rfl, List.append_nil] at hnone
  rw [hstripped, Url.ofRest_of_not_mem hnone.1 hnone.2] at hb
  cases hb
  rw [Ne, hlast, ← Ne, ← rstripSlash_eq_self_iff]
  constructor
  · rintro ⟨b, t, hb, ht', -, -, hshown, -⟩
    rw [hsplit] at hb
    rw [ht] at ht'
    cases hb
    cases ht'
    rw [hpath, rstripSlash_replicate] at hshown
    exact (List.append_cancel_right hshown).symm
  · intro hself
    refine ⟨parsed, _, hsplit, ht, rfl, rfl, ?_, rfl, rfl⟩
    rw [hpath, rstripSlash_replicate, hself]

/-- Over the bases that are accepted, a target is confined to its base just where the base is
sound.  Of the control characters, only tabs and line breaks matter in a query. -/
theorem target_confined_iff (h : buildTarget cfg base path query = some target)
    (hquery : '#' ∉ query ∧ clean query = query) :
    Confined cfg base path query target ↔ Sound base := by
  constructor
  · intro hconfined
    obtain ⟨hmark, hhash⟩ := undelimited_of_confined hquery h hconfined
    exact ⟨hmark, hhash, (confined_iff_of_undelimited ⟨hmark, hhash⟩ hquery h).mp hconfined⟩
  · rintro ⟨hmark, hhash, hend⟩
    exact (confined_iff_of_undelimited ⟨hmark, hhash⟩ hquery h).mpr hend

end Confined

theorem target_confined_iff_mock : Confined mockConfig "https://api.test/v1//" "//evil.test/#x"
    "a=1" "https://api.test/v1///evil.test/%23x?a=1" :=
  (target_confined_iff (by decide +kernel) (by decide)).mpr (by decide +kernel)

/-- A question mark at the end of a base turns the path of every client into a query. -/
theorem base_with_mark_escapes : ∃ target,
    buildTarget mockConfig "http://mock.test?" "items" [] = some target ∧
      ¬Confined mockConfig "http://mock.test?" "items" [] target := by
  refine ⟨"http://mock.test?/items", by decide +kernel, fun h => ?_⟩
  obtain ⟨b, t, -, ht, -, -, -, hquery, -⟩ := h
  have hsplit : (urlsplit mockConfig.netlocOk "http://mock.test?/items".toList).map Url.Split.query =
      some "/items".toList := by decide +kernel
  rw [ht, Option.map_some, hquery] at hsplit
  exact absurd hsplit (by decide)

end Proxy
end AdaptiveGateway
