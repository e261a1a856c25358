/-
The address that a request is forwarded to.

`proxy` takes the path from the route, which is the decoded path itself, but the
query from `request.url`, which is the decoded path and the query string put together
and split again.  A `?` or `#` in the path is cut there like one of the address, so
text of the path moves into the query or the query is lost.  `target_faithful_iff`
says for which paths and queries the upstream sees what the client has sent.
-/
import AdaptiveGateway.Codec.Quote
import AdaptiveGateway.Codec.UrlParts
import AdaptiveGateway.Proxy.Route

namespace AdaptiveGateway
namespace Proxy

open Codec
open Url (urlsplit clean ofRest unquote quote)

/-! ## The base -/

section Base

variable {cfg : Config} {base : Text}

theorem rstripSlash_append (t : Text) : ∃ n, t = rstripSlash t ++ List.replicate n '/' := by
  have hslashes : (t.reverse.takeWhile (· == '/')).reverse =
      List.replicate (t.reverse.takeWhile (· == '/')).length '/' := by
    refine List.eq_replicate_iff.mpr ⟨List.length_reverse, fun c hc => ?_⟩
    simpa using List.mem_takeWhile_imp (List.mem_reverse.mp hc)
  refine ⟨(t.reverse.takeWhile (· == '/')).length, ?_⟩
  rw [← hslashes, rstripSlash, ← List.reverse_append, List.takeWhile_append_dropWhile,
    List.reverse_reverse]

theorem rstripSlash_replicate (t : Text) (n : Nat) :
    rstripSlash (t ++ List.replicate n '/') = rstripSlash t := by
  have hall : ∀ c ∈ List.replicate n '/', (c == '/') = true := by
    intro c hc
    rw [(List.mem_replicate.mp hc).2]
    rfl
  rw [rstripSlash, List.reverse_append, List.reverse_replicate, List.dropWhile_append_of_pos hall,
    rstripSlash]

/-- What an accepted base is made of. -/
theorem validateUpstreamUrl_some (h : validateUpstreamUrl cfg base = true) :
    ∃ parsed, urlsplit cfg.netlocOk base = some parsed ∧
      (parsed.scheme = "http" ∨ parsed.scheme = "https") ∧ parsed.netloc ≠ [] ∧
      parsed.query = [] ∧ parsed.fragment = [] := by
  unfold validateUpstreamUrl at h
  split at h
  · cases h
  next parsed hsplit =>
    simp only [Bool.and_eq_true, Bool.not_eq_true', Bool.or_eq_false_iff, Bool.not_eq_false',
      List.isEmpty_iff, List.isEmpty_eq_false_iff] at h
    obtain ⟨⟨⟨⟨⟨⟨hscheme, hhost⟩, -⟩, hquery⟩, hfragment⟩, -⟩, -⟩ := h
    refine ⟨parsed, hsplit, ?_, ?_, hquery, hfragment⟩
    · simpa using hscheme
    · intro hnil
      rw [hnil] at hhost
      exact hhost rfl

/-- A target keeps the scheme and the authority of its base. -/
theorem urlsplit_target (h : validateUpstreamUrl cfg base = true) :
    ∃ parsed rest n, urlsplit cfg.netlocOk base = some parsed ∧
      (∀ c, c = '?' ∨ c = '#' → (c ∈ rest ↔ c ∈ base)) ∧
      parsed = ofRest parsed.scheme parsed.netloc (rest ++ List.replicate n '/') ∧
      urlsplit cfg.netlocOk (rstripSlash base) = some (ofRest parsed.scheme parsed.netloc rest) ∧
      ((clean (rstripSlash base)).getLast? = some '/' ↔ rest.getLast? = some '/') ∧
      ∀ more, urlsplit cfg.netlocOk (rstripSlash base ++ '/' :: more) =
        some (ofRest parsed.scheme parsed.netloc (rest ++ '/' :: clean more)) := by
  obtain ⟨parsed, hsplit, hscheme, hnetloc, -⟩ := validateUpstreamUrl_some h
  obtain ⟨n, hbase⟩ := rstripSlash_append base
  have hne : parsed.scheme ≠ [] := by
    rcases hscheme with hscheme | hscheme <;> rw [hscheme] <;> decide
  have hstripped := hsplit
  rw [hbase] at hstripped
  obtain ⟨rest, hsub, hdelim, hparsed, hrstrip, hlast, hmore⟩ :=
    Url.urlsplit_append hstripped hne hnetloc
  refine ⟨parsed, rest, n, hsplit, fun c hc => ⟨fun h => ?_, fun h => hdelim c hc ?_⟩, hparsed,
    hrstrip, hlast, hmore⟩
  · rw [hbase]
    exact List.mem_append_left _ (hsub h)
  · rw [hbase, List.mem_append] at h
    rcases h with h | h
    · exact h
    · rw [(List.mem_replicate.mp h).2] at hc
      exact absurd hc (by decide)

end Base

/-! ## The target -/

def SAFE : Text := "/-._~:@!$&'()*+,;="

section Target

variable {cfg : Config} {base path query target : Text}

theorem plain_safe : Url.Plain SAFE := by decide

theorem quote_clean (t : Text) : clean (quote SAFE t) = quote SAFE t := by
  refine List.filter_eq_self.mpr fun c hc => ?_
  have hsafe : ∀ c ∈ SAFE, (!Url.isUnsafe c) = true := List.all_eq_true.mp (by decide)
  rcases Url.mem_quote hc with h | h | rfl
  · rw [Bool.not_eq_true', Url.isUnsafe, Bool.or_eq_false_iff, Bool.or_eq_false_iff]
    refine ⟨⟨?_, ?_⟩, ?_⟩ <;> refine beq_false_of_ne fun heq => ?_ <;> rw [heq] at h <;>
      exact absurd h (by decide)
  · exact hsafe c h
  · decide

theorem not_mem_quote {c : Char} (hc : c = '?' ∨ c = '#') (t : Text) : c ∉ quote SAFE t := by
  intro hmem
  rcases Url.mem_quote hmem with h | h | h
  · rcases hc with rfl | rfl <;> exact absurd h (by decide)
  · rcases hc with rfl | rfl <;> exact absurd h (by decide)
  · rcases hc with rfl | rfl <;> exact absurd h (by decide)

theorem buildTarget_some (h : buildTarget cfg base path query = some target) :
    validateUpstreamUrl cfg base = true ∧
      target = rstripSlash base ++ '/' :: (quote SAFE path ++
        if query.isEmpty then [] else '?' :: query) := by
  unfold buildTarget at h
  split at h
  · cases h
  next hvalid =>
    split at h
    · cases h
    · cases h
      exact ⟨by simpa using hvalid, by rw [List.append_assoc]; rfl⟩

/-- What the upstream is to see: the path of the client under the prefix of the base, and
its query, with a question mark exactly if there is one. -/
structure Faithful (cfg : Config) (base path query target : Text) : Prop where
  parts : ∃ b t quoted, urlsplit cfg.netlocOk (rstripSlash base) = some b ∧
    urlsplit cfg.netlocOk target = some t ∧ t.scheme = b.scheme ∧ t.netloc = b.netloc ∧
    t.path = b.path ++ '/' :: quoted ∧ unquote quoted = some path ∧ t.query = query ∧
    t.fragment = []
  mark : '?' ∈ target ↔ query ≠ []

/-- The path and the query can be read off a target that shows both. -/
theorem Faithful.determines {path' query' : Text} (h : Faithful cfg base path query target)
    (h' : Faithful cfg base path' query' target) : path' = path ∧ query' = query := by
  obtain ⟨b, t, quoted, hb, ht, -, -, hpath, hquoted, hquery, -⟩ := h.parts
  obtain ⟨b', t', quoted', hb', ht', -, -, hpath', hquoted', hquery', -⟩ := h'.parts
  rw [hb] at hb'
  cases hb'
  rw [ht] at ht'
  cases ht'
  rw [hpath] at hpath'
  cases (List.append_cancel_left hpath')
  rw [hquoted] at hquoted'
  exact ⟨(Option.some.inj hquoted').symm, hquery'.symm.trans hquery⟩

/-- The split of a target, for a base and a query that have no delimiters. -/
theorem buildTarget_parts (hbase : '?' ∉ base ∧ '#' ∉ base)
    (hquery : '#' ∉ query ∧ clean query = query)
    (h : buildTarget cfg base path query = some target) :
    ∃ b, urlsplit cfg.netlocOk (rstripSlash base) = some b ∧
      urlsplit cfg.netlocOk target = some ⟨b.scheme, b.netloc, b.path ++ '/' :: quote SAFE path,
        query, []⟩ ∧ ('?' ∈ target ↔ query ≠ []) := by
  obtain ⟨hvalid, rfl⟩ := buildTarget_some h
  obtain ⟨parsed, rest, n, -, hdelim, -, hb, -, hmore⟩ := urlsplit_target hvalid
  have hrest : ∀ c, c = '?' ∨ c = '#' → c ∉ rest := by
    intro c hc
    rw [hdelim c hc]
    rcases hc with rfl | rfl
    · exact hbase.1
    · exact hbase.2
  have hpath : ∀ c, c = '?' ∨ c = '#' → c ∉ rest ++ '/' :: quote SAFE path := by
    intro c hc
    simp only [List.mem_append, List.mem_cons, not_or]
    refine ⟨hrest c hc, ?_, not_mem_quote hc path⟩
    rcases hc with rfl | rfl <;> decide
  have hprefix : ofRest parsed.scheme parsed.netloc rest =
      ⟨parsed.scheme, parsed.netloc, rest, [], []⟩ :=
    Url.ofRest_of_not_mem (hrest _ (.inl rfl)) (hrest _ (.inr rfl)) _ _
  refine ⟨_, hb.trans (congrArg some hprefix), ?_, ?_⟩
  · rw [hmore, Url.clean_append, quote_clean]
    cases query with
    | nil =>
      have hnil : clean (if ([] : Text).isEmpty then [] else '?' :: []) = [] := rfl
      rw [hnil, List.append_nil, ofRest, partition_of_not_mem (hpath _ (.inr rfl)),
        partition_of_not_mem (hpath _ (.inl rfl))]
    | cons c query =>
      have hclean : clean (if (c :: query).isEmpty then [] else '?' :: c :: query) =
          '?' :: c :: query := by
        show '?' :: clean (c :: query) = _
        rw [hquery.2]
      have hhash : '#' ∉ (rest ++ '/' :: quote SAFE path) ++ '?' :: c :: query := by
        rw [List.mem_append, List.mem_cons, not_or, not_or]
        exact ⟨hpath _ (.inr rfl), by decide, hquery.1⟩
      have hassoc : rest ++ '/' :: (quote SAFE path ++ '?' :: c :: query) =
          (rest ++ '/' :: quote SAFE path) ++ '?' :: c :: query := by simp
      rw [hclean, hassoc, ofRest, partition_of_not_mem hhash, partition_append (hpath _ (.inl rfl))]
  · have hfront : '?' ∉ rstripSlash base := fun hc => hbase.1 (by
      obtain ⟨n, hn⟩ := rstripSlash_append base
      rw [hn]
      exact List.mem_append_left _ hc)
    cases query with
    | nil => simp [hfront, not_mem_quote (.inl rfl) path]
    | cons c query => simp

end Target

/-! ## The query -/

/-- Splitting the address again gives the query back.  Without a delimiter in the path that
is so for every query that `urlsplit` does not cut or clean itself.  With one, text of the
path takes the place of the query, which must happen to be that text. -/
def Undisturbed (path query : Text) : Prop :=
  if '#' ∈ clean path then (partition '?' (partition '#' (clean path)).1).2 = query
  else if '?' ∈ clean path then (partition '?' (clean path)).2 = [] ∧ query = []
  else '#' ∉ query ∧ clean query = query

instance (path query : Text) : Decidable (Undisturbed path query) := by
  unfold Undisturbed
  infer_instance

/-- What follows the path in the address of a request. -/
def queryPart (query : Text) : Text := if query = [] then [] else '?' :: query

/-- What is left of a query when the fragment is off. -/
def keptQuery (query : Text) : Text := (partition '#' (clean query)).1

theorem keptQuery_plain (query : Text) :
    '#' ∉ keptQuery query ∧ clean (keptQuery query) = keptQuery query := by
  refine ⟨not_mem_partition _, List.filter_eq_self.mpr fun c hc => ?_⟩
  exact (List.mem_filter.mp (mem_of_mem_partition (.inl hc))).2

theorem keptQuery_eq_iff {query : Text} :
    keptQuery query = query ↔ '#' ∉ query ∧ clean query = query := by
  constructor
  · intro h
    rw [← h]
    exact keptQuery_plain query
  · rintro ⟨hhash, hclean⟩
    rw [keptQuery, hclean, partition_of_not_mem hhash]

theorem partition_queryPart {query : Text} (h : query ≠ []) :
    (partition '#' (clean (queryPart query))).1 = '?' :: keptQuery query := by
  have hpart : clean (queryPart query) = ['?'] ++ clean query := by rw [queryPart, if_neg h]; rfl
  rw [hpart, partition_append_of_not_mem (by decide)]
  rfl

/-- A query cannot come after a part of itself. -/
theorem append_keptQuery_ne {t : Text} (query : Text) (hhash : '#' ∉ t) (hclean : clean t = t) :
    t ++ '?' :: keptQuery query ≠ query := by
  intro h
  obtain ⟨hkept, hkeptClean⟩ := keptQuery_plain query
  have hplain : '#' ∉ query ∧ clean query = query := by
    rw [← h]
    refine ⟨?_, ?_⟩
    · rw [List.mem_append, List.mem_cons, not_or, not_or]
      exact ⟨hhash, by decide, hkept⟩
    · rw [Url.clean_append, hclean]
      show t ++ '?' :: clean (keptQuery query) = _
      rw [hkeptClean]
  have hlength := congrArg List.length h
  rw [keptQuery_eq_iff.mpr hplain, List.length_append, List.length_cons] at hlength
  omega

theorem query_eq_iff (scheme netloc path query : Text) :
    (ofRest scheme netloc (clean (path ++ queryPart query))).query = query ↔
      Undisturbed path query := by
  rw [Url.clean_append]
  unfold Undisturbed
  split
  next hhash =>
    obtain ⟨u, v, huv, hu⟩ := List.eq_append_cons_of_mem hhash
    rw [huv, List.append_assoc, List.cons_append, ofRest, partition_append hu, partition_append hu]
  next hhash =>
    have hrest : (ofRest scheme netloc (clean path ++ clean (queryPart query))).query =
        (partition '?' (clean path ++ (partition '#' (clean (queryPart query))).1)).2 := by
      rw [ofRest, partition_append_of_not_mem hhash]
    rw [hrest]
    split
    next hmark =>
      obtain ⟨u, v, huv, hu⟩ := List.eq_append_cons_of_mem hmark
      rw [huv, List.append_assoc, List.cons_append, partition_append hu, partition_append hu]
      by_cases hquery : query = []
      · subst hquery
        simp [queryPart, clean, partition]
      · have hv : ∀ c ∈ v, c ∈ clean path := fun c hc => by rw [huv]; simp [hc]
        have hclean : clean v = v :=
          List.filter_eq_self.mpr fun c hc => (List.mem_filter.mp (hv c hc)).2
        have hne := append_keptQuery_ne query (fun hc => hhash (hv _ hc)) hclean
        rw [partition_queryPart hquery]
        exact iff_of_false hne fun h => hquery h.2
    next hmark =>
      by_cases hquery : query = []
      · subst hquery
        have hnone : clean path ++ (partition '#' (clean (queryPart []))).1 = clean path :=
          List.append_nil _
        rw [hnone, partition_of_not_mem hmark]
        exact iff_of_true rfl ⟨List.not_mem_nil, rfl⟩
      · rw [partition_queryPart hquery, partition_append hmark]
        exact keptQuery_eq_iff

/-! ## Requests -/

section Request

variable {cfg : Config} {net : Resolver} {inc : Incoming} {query : Text}

theorem latin1_injective {a b : Bytes} (h : latin1 a = latin1 b) : a = b := by
  have ha := latin1Encode_latin1 a
  rw [h, latin1Encode_latin1] at ha
  exact (Option.some.inj ha).symm

theorem splitScheme_slash (t : Text) : Url.splitScheme ('/' :: t) = ([], '/' :: t) := by
  have hhead : ((('/' :: t).takeWhile (· != ':')).take 1).any isAsciiAlpha = false := by
    simp only [List.takeWhile_cons, show ('/' != ':') = true by decide, if_true, List.take_succ_cons,
      List.take_zero, List.any_cons, List.any_nil]
    decide
  unfold Url.splitScheme
  dsimp only
  split
  · rw [hhead, Bool.false_and, if_neg Bool.false_ne_true]
  · rfl

/-- An authority that `urlsplit` finds whole behind `//`. -/
theorem authority_of_urlsplit {netlocOk : Text → Bool} {host : Text} {parsed : Url.Split}
    (h : urlsplit netlocOk ('/' :: '/' :: host) = some parsed) (hnetloc : parsed.netloc = host) :
    host.all (!Url.isNetlocEnd ·) = true ∧ clean host = host ∧
      Url.checkNetloc netlocOk host = true := by
  have hclean : clean (('/' :: '/' :: host).dropWhile Url.isC0OrSpace) =
      '/' :: '/' :: clean host := rfl
  rw [Url.urlsplit_eq, hclean, Url.splitClean, splitScheme_slash] at h
  dsimp only at h
  split at h
  next hcheck =>
    cases h
    have htake : (clean host).takeWhile (!Url.isNetlocEnd ·) = host := hnetloc
    refine ⟨?_, ?_, ?_⟩
    · rw [← htake]
      exact List.all_takeWhile
    · refine List.filter_eq_self.mpr fun c hc => ?_
      rw [← htake] at hc
      exact (List.mem_filter.mp ((List.takeWhile_prefix _).subset hc)).2
    · rw [← htake]
      exact hcheck
  next => cases h

theorem lookup_host {e : Bytes × Bytes}
    (hhost : inc.headers.filter (fun e => Incoming.lowerBytes e.1 == utf8 "host") = [e])
    (hnames : ∀ e ∈ inc.headers, Incoming.lowerBytes e.1 = e.1) :
    Dict.lookup ("host" : Text) inc.lines = some (latin1 e.2) := by
  have hname : ∀ b, latin1 b = ("host" : Text) ↔ b = utf8 "host" := by
    intro b
    refine ⟨fun h => latin1_injective (h.trans ?_), fun h => h ▸ ?_⟩
    · decide
    · decide
  have hsame : inc.headers.filter ((fun x => decide (x.1 = ("host" : Text))) ∘
      fun e => (latin1 e.1, latin1 e.2)) = [e] := by
    rw [← hhost]
    refine List.filter_congr fun x hx => ?_
    rw [hnames x hx, beq_eq_decide]
    exact decide_eq_decide.mpr (hname x.1)
  rw [Dict.lookup_eq_head?, Dict.values, Incoming.lines, List.filter_map, hsame]
  rfl

/-- The host of a request that has passed the boundary is an authority. -/
theorem host_of_boundary (hpass : inc.passesBoundary cfg = true)
    (hnames : ∀ e ∈ inc.headers, Incoming.lowerBytes e.1 = e.1) :
    ∃ host, Dict.lookup ("host" : Text) inc.lines = some host ∧
      host.all (!Url.isNetlocEnd ·) = true ∧ clean host = host ∧
      Url.checkNetloc cfg.netlocOk host = true := by
  unfold Incoming.passesBoundary at hpass
  split at hpass
  next e hhost =>
    dsimp only at hpass
    split at hpass
    · cases hpass
    next parsed hsplit =>
      simp only [Bool.and_eq_true, beq_iff_eq] at hpass
      exact ⟨latin1 e.2, lookup_host hhost hnames,
        authority_of_urlsplit hsplit hpass.1.1.1.1.1.1.1.2⟩
  next => cases hpass

/-- The address of a request ends in its path and its query. -/
theorem url_some (hq : utf8Decode inc.queryString = some query) :
    inc.url = some (inc.scheme ++ ("://" : Text) ++
      (Dict.lookup ("host" : Text) inc.lines).getD inc.server ++ inc.scopePath ++ queryPart query) := by
  have hbytes := utf8_of_utf8Decode hq
  have hpart : (if inc.queryString.isEmpty then some []
      else (utf8Decode inc.queryString).map ('?' :: ·)) = some (queryPart query) := by
    rw [hq, queryPart]
    by_cases hquery : query = []
    · have hempty : inc.queryString = [] := by
        rw [← hbytes, hquery]
        rfl
      rw [if_pos hquery, hempty]
      rfl
    · have hne : inc.queryString.isEmpty = false := by
        rw [List.isEmpty_eq_false_iff, ← hbytes]
        intro hnil
        exact hquery (utf8_injective (hnil.trans rfl))
      rw [if_neg hquery, hne]
      rfl
  rw [Incoming.url, hpart]
  rfl

/-- `request.url`, split. -/
theorem urlParts_some (hpass : inc.passesBoundary cfg = true)
    (hnames : ∀ e ∈ inc.headers, Incoming.lowerBytes e.1 = e.1)
    (hscheme : inc.scheme = "http" ∨ inc.scheme = "https")
    (hq : utf8Decode inc.queryString = some query) :
    ∃ host, inc.urlParts cfg =
      some (ofRest inc.scheme host (clean (inc.scopePath ++ queryPart query))) := by
  obtain ⟨host, hlookup, hall, hclean, hcheck⟩ := host_of_boundary hpass hnames
  refine ⟨host, ?_⟩
  have hfacts : Url.IsScheme inc.scheme ∧ lower inc.scheme = inc.scheme ∧
      clean inc.scheme = inc.scheme ∧ ∀ t, (inc.scheme ++ t).dropWhile Url.isC0OrSpace =
        inc.scheme ++ t := by
    rcases hscheme with hscheme | hscheme <;> rw [hscheme] <;>
      exact ⟨by unfold Url.IsScheme; decide, by decide, by decide, fun t => rfl⟩
  obtain ⟨hvalid, hlower, hcleanScheme, hdrop⟩ := hfacts
  have hrest : Url.IsRest (clean (inc.scopePath ++ queryPart query)) :=
    fun c hc => by cases hc; decide
  have happend := Url.splitClean_append cfg.netlocOk hvalid hall hrest
  rw [if_pos hcheck, hlower] at happend
  rw [Incoming.urlParts, url_some hq, hlookup, Option.bind_some, Url.urlsplit_eq]
  simp only [Option.getD_some, List.append_assoc]
  rw [hdrop, Url.clean_append, Url.clean_append, Url.clean_append, hcleanScheme, hclean]
  exact happend

end Request

/-! ## What the upstream sees -/

/-- The address that a request is forwarded to, if it is. -/
def Route.target? : Route → Option Text
  | .answer _ => none
  | .get g => some g.target
  | .write c => some c.target

/-- A request over HTTP that has passed the boundary and is forwarded to `target` under
`base`; `query` is its query string. -/
structure Forwarded (cfg : Config) (net : Resolver) (inc : Incoming) (base query target : Text) :
    Prop where
  boundary : inc.passesBoundary cfg = true
  /-- Servers hand header names over in lower case. -/
  names : ∀ e ∈ inc.headers, Incoming.lowerBytes e.1 = e.1
  scheme : inc.scheme = "http" ∨ inc.scheme = "https"
  query : utf8Decode inc.queryString = some query
  destination : ∃ host, destination cfg net inc.service = some (base, host)
  target : (proxy cfg net inc).target? = some target

section Forward

variable {cfg : Config} {net : Resolver} {inc : Incoming} {base query target : Text}

theorem proxy_target? {host : Option Text} (hdest : destination cfg net inc.service = some (base, host))
    (h : (proxy cfg net inc).target? = some target) :
    ∃ url, inc.urlParts cfg = some url ∧ buildTarget cfg base inc.path url.query = some target := by
  unfold proxy at h
  rw [hdest] at h
  dsimp only at h
  split at h
  · cases h
  next url target' hbind =>
    obtain ⟨url', hurl, hmap⟩ := Option.bind_eq_some_iff.mp hbind
    obtain ⟨t, ht, hpair⟩ := Option.map_eq_some_iff.mp hmap
    cases hpair
    refine ⟨url, hurl, ?_⟩
    split at h
    · cases h
    · split at h <;> cases h <;> exact ht

/-- `proxy` builds its target from the path and from the query of the address. -/
theorem Forwarded.built (h : Forwarded cfg net inc base query target) :
    ∃ host seen, seen = (ofRest inc.scheme host (clean (inc.scopePath ++ queryPart query))).query ∧
      buildTarget cfg base inc.path seen = some target := by
  obtain ⟨found, hdest⟩ := h.destination
  obtain ⟨url, hurl, hbuilt⟩ := proxy_target? hdest h.target
  obtain ⟨host, hparts⟩ := urlParts_some h.boundary h.names h.scheme h.query
  rw [hparts] at hurl
  cases hurl
  exact ⟨host, _, rfl, hbuilt⟩

theorem Forwarded.faithful_iff (h : Forwarded cfg net inc base query target)
    (hbase : '?' ∉ base ∧ '#' ∉ base) :
    Faithful cfg base inc.path query target ↔ Undisturbed inc.scopePath query := by
  obtain ⟨host, seen, hseen, hbuilt⟩ := h.built
  have hplain : '#' ∉ seen ∧ clean seen = seen := by
    rw [hseen]
    refine ⟨fun hc => not_mem_partition _ (mem_of_mem_partition (.inr hc)),
      List.filter_eq_self.mpr fun c hc => ?_⟩
    have hmem := mem_of_mem_partition (.inl (mem_of_mem_partition (.inr hc)))
    exact (List.mem_filter.mp hmem).2
  obtain ⟨b, hb, ht, hmark⟩ := buildTarget_parts hbase hplain hbuilt
  rw [← query_eq_iff inc.scheme host, ← hseen]
  constructor
  · intro hfaithful
    obtain ⟨b', t, quoted, -, ht', -, -, -, -, hquery, -⟩ := hfaithful.parts
    rw [ht] at ht'
    cases ht'
    exact hquery
  · rintro rfl
    exact ⟨⟨b, _, _, hb, ht, rfl, rfl, rfl, Url.unquote_quote plain_safe inc.path, rfl, rfl⟩, hmark⟩

/-- The target shows the upstream the client's path and query exactly if splitting the
address again leaves the query undisturbed; and two such requests with one target have
the same path and the same query. -/
theorem target_faithful_iff (h : Forwarded cfg net inc base query target)
    (hbase : '?' ∉ base ∧ '#' ∉ base) :
    (Faithful cfg base inc.path query target ↔ Undisturbed inc.scopePath query) ∧
    ∀ inc' query', Forwarded cfg net inc' base query' target → Undisturbed inc.scopePath query →
      Undisturbed inc'.scopePath query' → inc'.path = inc.path ∧ query' = query := by
  refine ⟨h.faithful_iff hbase, fun inc' query' h' hquiet hquiet' => ?_⟩
  have hfaithful := (h.faithful_iff hbase).mpr hquiet
  exact hfaithful.determines ((h'.faithful_iff hbase).mpr hquiet')

end Forward

/-! ## Requests to the mock service -/

def noResolver : Resolver := ⟨fun _ => none, fun _ => none⟩

/-- A read of the mock service. -/
def visit (path : Text) (queryString : Bytes) : Incoming where
  method := "GET"
  service := "mock"
  path := path
  queryString := queryString
  headers := [(utf8 "host", utf8 "gateway.test")]
  clientIp := "192.0.2.1"

theorem visit_forwarded {path query target : Text}
    (h : (proxy mockConfig noResolver (visit path (utf8 query))).target? = some target) :
    Forwarded mockConfig noResolver (visit path (utf8 query)) "http://mock.test" query target where
  boundary := by
    show (visit [] []).passesBoundary mockConfig = true
    decide +kernel
  names := by
    show ∀ e ∈ [(utf8 "host", utf8 "gateway.test")], Incoming.lowerBytes e.1 = e.1
    decide
  scheme := .inl rfl
  query := utf8Decode_utf8 query
  destination := ⟨none, by
    show destination mockConfig noResolver "mock" = _
    decide +kernel⟩
  target := h

theorem target_faithful_mock :
    Faithful mockConfig "http://mock.test" "items" "q=1" "http://mock.test/items?q=1" := by
  have hforwarded : Forwarded mockConfig noResolver (visit "items" (utf8 "q=1"))
      "http://mock.test" "q=1" "http://mock.test/items?q=1" :=
    visit_forwarded (by decide +kernel)
  exact (target_faithful_iff hforwarded (by decide)).1.mpr (by decide +kernel)

/-- A question mark in the path moves a part of it into the query, and a number sign drops
the query, so that two different requests get one target. -/
theorem delimiter_in_path_confuses :
    Forwarded mockConfig noResolver (visit "a?b" (utf8 "x=1")) "http://mock.test" "x=1"
      "http://mock.test/a%3Fb?b?x=1" ∧
    ¬Faithful mockConfig "http://mock.test" "a?b" "x=1" "http://mock.test/a%3Fb?b?x=1" ∧
    Forwarded mockConfig noResolver (visit "a#b" (utf8 "x=1")) "http://mock.test" "x=1"
      "http://mock.test/a%23b" ∧
    Forwarded mockConfig noResolver (visit "a#b" (utf8 "")) "http://mock.test" ""
      "http://mock.test/a%23b" := by
  refine ⟨visit_forwarded (by decide +kernel), fun h => ?_, visit_forwarded (by decide +kernel),
    visit_forwarded (by decide +kernel)⟩
  obtain ⟨b, t, quoted, -, ht, -, -, -, -, hquery, -⟩ := h.parts
  have hsplit : (urlsplit mockConfig.netlocOk "http://mock.test/a%3Fb?b?x=1".toList).map
      Url.Split.query = some "b?x=1".toList := by decide +kernel
  rw [ht, Option.map_some, hquery] at hsplit
  exact absurd hsplit (by decide)

end Proxy
end AdaptiveGateway
