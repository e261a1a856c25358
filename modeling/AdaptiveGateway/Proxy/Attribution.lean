/-
Which service a target belongs to.

The proxy knows the service of a request by its name and looks its rule up under that
name.  The queue has the target alone and recovers the name from it: the first service,
in the order of the upstream map, whose base has the same scheme and authority and a
path that the target's path extends.  `attributed_iff` says when the two agree.
-/
import AdaptiveGateway.ConfigFile
import AdaptiveGateway.Proxy.Target
import AdaptiveGateway.Queue.SyncWorker

namespace AdaptiveGateway
namespace Proxy

open Codec
open Url (urlsplit clean ofRest quote)

/-! ## First match -/

section Search

variable {cfg : Config} {parsed : Url.Split} {s : Text} {base : Text}

/-- The test of `destination_service`. -/
def Matches (parsed approved : Url.Split) : Prop :=
  (parsed.scheme, parsed.netloc) = (approved.scheme, approved.netloc) ∧
    (rstripSlash approved.path ++ ['/']).isPrefixOf parsed.path = true

instance (parsed approved : Url.Split) : Decidable (Matches parsed approved) :=
  inferInstanceAs (Decidable (_ ∧ _))

/-- The test for a base that `urlsplit` takes. -/
def MatchesBase (cfg : Config) (parsed : Url.Split) (base : Text) : Prop :=
  ∃ approved, urlsplit cfg.netlocOk base = some approved ∧ Matches parsed approved

/-- The services that stand before `s`. -/
def listedBefore (s : Text) (items : List (Text × Text)) : List (Text × Text) :=
  items.takeWhile fun e => decide (e.1 ≠ s)

theorem findService_cons {name b : Text} {approved : Url.Split} {items : List (Text × Text)}
    (h : urlsplit cfg.netlocOk b = some approved) :
    findService cfg parsed ((name, b) :: items) =
      if Matches parsed approved then some (some name) else findService cfg parsed items := by
  rw [findService, h]
  rfl

/-- What is found is listed. -/
theorem mem_of_findService {items : List (Text × Text)}
    (h : findService cfg parsed items = some (some s)) : s ∈ items.map Prod.fst := by
  induction items with
  | nil => cases h
  | cons e items ih =>
    obtain ⟨name, b⟩ := e
    cases hb : urlsplit cfg.netlocOk b with
    | none =>
      rw [findService, hb] at h
      cases h
    | some approved =>
      rw [findService_cons hb] at h
      split at h
      · cases h
        exact List.mem_cons_self
      · exact List.mem_cons_of_mem name (ih h)

theorem findService_iff (parsed : Url.Split) {items : List (Text × Text)}
    (hsplit : ∀ e ∈ items, (urlsplit cfg.netlocOk e.2).isSome = true)
    (hnodup : (items.map Prod.fst).Nodup) (hmem : (s, base) ∈ items) :
    findService cfg parsed items = some (some s) ↔
      MatchesBase cfg parsed base ∧ ∀ e ∈ listedBefore s items, ¬MatchesBase cfg parsed e.2 := by
  induction items with
  | nil => cases hmem
  | cons e items ih =>
    obtain ⟨name, b⟩ := e
    obtain ⟨approved, happroved⟩ := Option.isSome_iff_exists.mp (hsplit _ List.mem_cons_self)
    obtain ⟨hnew, hnodup⟩ := List.nodup_cons.mp hnodup
    have hbase : MatchesBase cfg parsed b ↔ Matches parsed approved := by
      constructor
      · rintro ⟨a, ha, hmatch⟩
        rw [ha] at happroved
        cases happroved
        exact hmatch
      · exact fun hmatch => ⟨approved, happroved, hmatch⟩
    rw [findService_cons happroved]
    by_cases hname : name = s
    · -- the service itself stands first
      subst hname
      have hsame : base = b := by
        rcases List.mem_cons.mp hmem with heq | hlater
        · exact (Prod.mk.inj heq).2
        · exact absurd (List.mem_map_of_mem hlater) hnew
      subst hsame
      have hnone : listedBefore name ((name, base) :: items) = [] := by simp [listedBefore]
      rw [hnone, hbase]
      by_cases hmatch : Matches parsed approved
      · simp [hmatch]
      · rw [if_neg hmatch]
        exact iff_of_false (fun h => hnew (mem_of_findService h)) fun h => hmatch h.1
    · have hlater : (s, base) ∈ items := by
        rcases List.mem_cons.mp hmem with heq | hlater
        · exact absurd (Prod.mk.inj heq).1.symm hname
        · exact hlater
      have hcons : listedBefore s ((name, b) :: items) = (name, b) :: listedBefore s items := by
        simp [listedBefore, hname]
      rw [hcons, List.forall_mem_cons, hbase]
      by_cases hmatch : Matches parsed approved
      · rw [if_pos hmatch]
        refine iff_of_false (fun h => hname ?_) fun h => h.2.1 hmatch
        exact Option.some.inj (Option.some.inj h)
      · rw [if_neg hmatch, ih (fun e he => hsplit e (List.mem_cons_of_mem _ he)) hnodup hlater]
        exact and_congr_right fun _ => (and_iff_right hmatch).symm

end Search

/-! ## Slashes -/

theorem rstripSlash_last (t : Text) : (rstripSlash t).getLast? ≠ some '/' := by
  rw [rstripSlash, List.getLast?_reverse]
  intro h
  have hfirst := List.head?_dropWhile_not (· == '/') t.reverse
  rw [h] at hfirst
  cases hfirst

/-- A path extends its own prefix if a slash follows, ... -/
theorem prefix_append_slash (t u : Text) : rstripSlash t ++ ['/'] <+: t ++ '/' :: u := by
  obtain ⟨n, hn⟩ := rstripSlash_append t
  refine ⟨List.replicate n '/' ++ u, ?_⟩
  conv => rhs; rw [hn]
  rw [List.append_assoc, List.append_assoc, List.singleton_append, ← List.cons_append,
    ← List.replicate_succ, List.replicate_succ']
  simp

/-- ... and by itself if it ends in one. -/
theorem prefix_self_iff (t : Text) : rstripSlash t ++ ['/'] <+: t ↔ t.getLast? = some '/' := by
  obtain ⟨n, hn⟩ := rstripSlash_append t
  cases n with
  | zero =>
    have hsame : t = rstripSlash t := by simpa using hn
    refine iff_of_false (fun h => ?_) (hsame ▸ rstripSlash_last t)
    have hlength := h.length_le
    rw [← hsame, List.length_append, List.length_singleton] at hlength
    omega
  | succ n =>
    refine iff_of_true ⟨List.replicate n '/', ?_⟩ ?_
    · conv => rhs; rw [hn]
      rw [List.append_assoc, List.singleton_append, List.replicate_succ]
    · rw [hn, List.replicate_succ', ← List.append_assoc, List.getLast?_concat]

/-! ## The service of a target -/

/-- The path of a target under `base`.  A delimiter at the end of the base makes the
client's path a part of the query or of the fragment. -/
def reachedPath (cfg : Config) (base path : Text) : Text :=
  match urlsplit cfg.netlocOk (rstripSlash base) with
  | none => []
  | some b => if '?' ∈ base ∨ '#' ∈ base then b.path else b.path ++ '/' :: quote SAFE path

/-- The base leads to targets that it matches: it has no delimiter, or a path that ends in a
slash. -/
def Owns (cfg : Config) (base : Text) : Prop :=
  '?' ∉ base ∧ '#' ∉ base ∨
    ∃ b, urlsplit cfg.netlocOk base = some b ∧ b.path.getLast? = some '/'

/-- The base `other` matches the path that is reached under `base`. -/
def Shadows (cfg : Config) (base path other : Text) : Prop :=
  ∃ a b, urlsplit cfg.netlocOk other = some a ∧ urlsplit cfg.netlocOk base = some b ∧
    (b.scheme, b.netloc) = (a.scheme, a.netloc) ∧
    (rstripSlash a.path ++ ['/']).isPrefixOf (reachedPath cfg base path) = true

section Service

variable {cfg : Config} {base path query target : Text}

theorem takeWhile_of_no_delimiter {t : Text} (h : ¬('?' ∈ t ∨ '#' ∈ t)) (u : Text) :
    (t ++ u).takeWhile (!Url.isDelimiter ·) = t ++ u.takeWhile (!Url.isDelimiter ·) := by
  refine List.takeWhile_append_of_pos fun c hc => ?_
  rw [Bool.not_eq_true', Url.isDelimiter, Bool.or_eq_false_iff, beq_eq_false_iff_ne,
    beq_eq_false_iff_ne]
  exact ⟨fun heq => h (.inl (heq ▸ hc)), fun heq => h (.inr (heq ▸ hc))⟩

theorem takeWhile_of_delimiter {t : Text} (h : '?' ∈ t ∨ '#' ∈ t) (u : Text) :
    (t ++ u).takeWhile (!Url.isDelimiter ·) = t.takeWhile (!Url.isDelimiter ·) := by
  have hne : ¬(t.takeWhile (!Url.isDelimiter ·)).length = t.length := by
    intro hlength
    have hwhole := (List.takeWhile_prefix (!Url.isDelimiter ·)).eq_of_length hlength
    have hall := List.takeWhile_eq_self_iff.mp hwhole
    rcases h with h | h <;> exact absurd (hall _ h) (by decide)
  rw [List.takeWhile_append, if_neg hne]

/-- The parts of a target that the search looks at, and those of its base. -/
theorem target_parts (h : buildTarget cfg base path query = some target) :
    ∃ b t, urlsplit cfg.netlocOk base = some b ∧ urlsplit cfg.netlocOk target = some t ∧
      t.scheme = b.scheme ∧ t.netloc = b.netloc ∧ t.path = reachedPath cfg base path ∧
      ((rstripSlash b.path ++ ['/']).isPrefixOf t.path = true ↔ Owns cfg base) := by
  obtain ⟨hvalid, rfl⟩ := buildTarget_some h
  obtain ⟨parsed, rest, n, hb, hdelim, hparsed, hstripped, -, hmore⟩ := urlsplit_target hvalid
  refine ⟨parsed, _, hb, hmore _, rfl, rfl, ?_⟩
  have hiff : ('?' ∈ base ∨ '#' ∈ base) ↔ ('?' ∈ rest ∨ '#' ∈ rest) :=
    or_congr (hdelim _ (.inl rfl)).symm (hdelim _ (.inr rfl)).symm
  have hpath : parsed.path = (rest ++ List.replicate n '/').takeWhile (!Url.isDelimiter ·) := by
    rw [← Url.ofRest_path parsed.scheme parsed.netloc, ← hparsed]
  rw [reachedPath, hstripped, Url.ofRest_path]
  dsimp only
  rw [Url.ofRest_path]
  by_cases hd : '?' ∈ base ∨ '#' ∈ base
  · rw [if_pos hd, takeWhile_of_delimiter (hiff.mp hd)]
    rw [takeWhile_of_delimiter (hiff.mp hd)] at hpath
    refine ⟨rfl, ?_⟩
    rw [← hpath, List.isPrefixOf_iff_prefix, prefix_self_iff]
    constructor
    · exact fun hlast => .inr ⟨parsed, hb, hlast⟩
    · rintro (hno | ⟨b, hb', hlast⟩)
      · exact absurd hd (not_or.mpr hno)
      · rw [hb] at hb'
        cases hb'
        exact hlast
  · have hd' : ¬('?' ∈ rest ∨ '#' ∈ rest) := fun hc => hd (hiff.mpr hc)
    have hslashes : (List.replicate n '/').takeWhile (!Url.isDelimiter ·) = List.replicate n '/' := by
      refine List.takeWhile_eq_self_iff.mpr fun c hc => ?_
      rw [(List.mem_replicate.mp hc).2]
      decide
    have htail : (clean (quote SAFE path ++ if query.isEmpty then [] else '?' :: query)).takeWhile
        (!Url.isDelimiter ·) = quote SAFE path := by
      have hquoted : ¬('?' ∈ quote SAFE path ∨ '#' ∈ quote SAFE path) :=
        not_or.mpr ⟨not_mem_quote (.inl rfl) path, not_mem_quote (.inr rfl) path⟩
      rw [Url.clean_append, quote_clean, takeWhile_of_no_delimiter hquoted]
      cases query with
      | nil => exact List.append_nil _
      | cons c query => exact List.append_nil _
    have hreached : (rest ++ '/' :: clean (quote SAFE path ++
        if query.isEmpty then [] else '?' :: query)).takeWhile (!Url.isDelimiter ·) =
        rest ++ '/' :: quote SAFE path := by
      rw [takeWhile_of_no_delimiter hd', List.takeWhile_cons, if_pos (by decide), htail]
    have hrest : rest.takeWhile (!Url.isDelimiter ·) = rest := by
      simpa using takeWhile_of_no_delimiter hd' []
    rw [takeWhile_of_no_delimiter hd', hslashes] at hpath
    rw [if_neg hd, hrest, hreached]
    refine ⟨rfl, iff_of_true ?_ (.inl (not_or.mp hd))⟩
    rw [hpath, rstripSlash_replicate, List.isPrefixOf_iff_prefix]
    exact prefix_append_slash rest _

/-- The queue attributes a target to the service that it was built for if and only if the
base of the service leads to targets that it matches and no service listed before it
has a base that matches the path reached.  The rule that admits a write is then the
rule of that service. -/
theorem attributed_iff (haccepted : ConfigFile.Accepted cfg) {s : Text}
    (hs : cfg.settings.upstreamServices.get? s = some base)
    (h : buildTarget cfg base path query = some target) :
    (destinationService cfg target = some (some s) ↔ Owns cfg base ∧
      ∀ e ∈ listedBefore s cfg.settings.upstreamServices.items, ¬Shadows cfg base path e.2) ∧
    (destinationService cfg target = some (some s) → ∀ w : Queue.Write, w.url = target →
      Queue.admits cfg w = (Queue.writeMethods.contains w.method &&
        (cfg.getRouteRule s).queueWrites &&
        !((w.headers.get? "idempotency-key").getD []).isEmpty &&
        decide (w.body.length ≤ cfg.settings.maxRequestBodyBytes))) := by
  obtain ⟨b, t, hb, ht, hscheme, hnetloc, hpath, howns⟩ := target_parts h
  have hsplit : ∀ e ∈ cfg.settings.upstreamServices.items,
      (urlsplit cfg.netlocOk e.2).isSome = true := by
    intro e he
    obtain ⟨parsed, hparsed, -⟩ := validateUpstreamUrl_some (haccepted e he)
    rw [hparsed]
    rfl
  have hfind := findService_iff t hsplit cfg.settings.upstreamServices.nodup
    (Dict.mem_items_iff.mpr hs)
  have hservice : destinationService cfg target =
      findService cfg t cfg.settings.upstreamServices.items := by rw [destinationService, ht]
  refine ⟨?_, fun hfound w hw => ?_⟩
  · rw [hservice, hfind]
    refine and_congr ?_ (forall₂_congr fun e _ => not_congr ?_)
    · rw [← howns]
      constructor
      · rintro ⟨b', hb', hmatch⟩
        rw [hb] at hb'
        cases hb'
        exact hmatch.2
      · exact fun hprefix => ⟨b, hb, by rw [hscheme, hnetloc], hprefix⟩
    · constructor
      · rintro ⟨a, ha, hmatch⟩
        refine ⟨a, b, ha, hb, ?_, hpath ▸ hmatch.2⟩
        rw [← hscheme, ← hnetloc]
        exact hmatch.1
      · rintro ⟨a, b', ha, hb', hsame, hprefix⟩
        rw [hb] at hb'
        cases hb'
        refine ⟨a, ha, ?_, hpath ▸ hprefix⟩
        rw [hscheme, hnetloc]
        exact hsame
  · rw [Queue.admits, hw, hfound]

end Service

/-- Two services side by side on one host. -/
def siblingConfig : Config where
  settings := { mockSettings with
    upstreamServices := ⟨[("api", "http://shared.test/api"), ("site", "http://shared.test/site")],
      by decide⟩ }
  rules := ⟨⟨[("_default", {}), ("site", { queueWrites := true })], by decide⟩, {}, by decide⟩
  netlocOk := fun _ => true
  recursionLimit := noLimit

/-- The base that is listed first does not match what is reached under the second. -/
theorem attributed_mock :
    destinationService siblingConfig "http://shared.test/site/orders?q=1" =
      some (some "site".toList) := by
  have haccepted : ConfigFile.Accepted siblingConfig := by
    show ∀ e ∈ siblingConfig.settings.upstreamServices.items,
      validateUpstreamUrl siblingConfig e.2 = true
    decide +kernel
  have hbuilt : buildTarget siblingConfig "http://shared.test/site" "orders" "q=1" =
      some "http://shared.test/site/orders?q=1".toList := by decide +kernel
  refine (attributed_iff haccepted (s := "site".toList) (by decide +kernel) hbuilt).1.mpr ⟨?_, ?_⟩
  · exact .inl (by decide)
  · intro e he
    have hfirst : listedBefore "site" siblingConfig.settings.upstreamServices.items =
        [("api".toList, "http://shared.test/api".toList)] := by decide
    rw [hfirst, List.mem_singleton] at he
    rintro ⟨a, b, ha, -, -, hprefix⟩
    have hapi : (urlsplit siblingConfig.netlocOk "http://shared.test/api".toList).map
        Url.Split.path = some "/api".toList := by decide +kernel
    rw [he] at ha
    rw [ha] at hapi
    rw [Option.some.inj hapi] at hprefix
    exact absurd hprefix (by decide +kernel)

/-- Two services on one host, the second below the first, and only the first with a
contract for queued writes. -/
def nestedConfig : Config where
  settings := { mockSettings with
    upstreamServices :=
      ⟨[("site", "http://shared.test"), ("api", "http://shared.test/api")], by decide⟩ }
  rules := ⟨⟨[("_default", {}), ("site", { queueWrites := true })], by decide⟩, {}, by decide⟩
  netlocOk := fun _ => true
  recursionLimit := noLimit

/-- A write to the second service is taken for one to the first and queued, under a rule
that the service it addresses does not have. -/
theorem nested_base_misattributed :
    ConfigFile.Accepted nestedConfig ∧
      nestedConfig.settings.upstreamServices.get? "api" = some "http://shared.test/api".toList ∧
      buildTarget nestedConfig "http://shared.test/api" "orders" [] =
        some "http://shared.test/api/orders".toList ∧
      destinationService nestedConfig "http://shared.test/api/orders" = some (some "site".toList) ∧
      (nestedConfig.getRouteRule "api").queueWrites = false ∧
      (nestedConfig.getRouteRule "site").queueWrites = true := by
  refine ⟨?_, by decide +kernel, by decide +kernel, by decide +kernel, by decide +kernel,
    by decide +kernel⟩
  show ∀ e ∈ nestedConfig.settings.upstreamServices.items,
    validateUpstreamUrl nestedConfig e.2 = true
  decide +kernel

end Proxy
end AdaptiveGateway
