/-
The header fields of a proxied response.

httpx reports the names of an upstream's headers in lower case, and a response is
written with its names in lower case.  So a response that is built from an
upstream's headers has each of them once, in their order, and behind them the
fields of the gateway.  `fromUpstream_eq` and `fromCache_eq` say this field by
field, for the two ways in which the proxy builds such a response.
-/
import AdaptiveGateway.Proxy.Cache

namespace AdaptiveGateway
namespace Proxy

open Codec Cache

/-! ## Names -/

def LowerCase (name : Text) : Prop := lower name = name

instance (name : Text) : Decidable (LowerCase name) :=
  inferInstanceAs (Decidable (lower name = name))

/-- What httpx promises of the headers it reports. -/
structure Reported (a : UpstreamAnswer) : Prop where
  names : a.headers.AllKeys LowerCase
  cookies : a.setCookie ≠ [] ↔ (a.headers.get? "set-cookie").isSome = true

/-- The headers of this name are not passed on. -/
def dropped (connection name : Text) : Bool :=
  (HOP_BY_HOP ++ (splitOn ',' connection).map fun part => lower (strip part)).contains (lower name)

/-- The `Connection` header names this header. -/
def Nominates (connection name : Text) : Prop :=
  name ∈ (splitOn ',' connection).map fun part => lower (strip part)

theorem dropped_iff {connection name : Text} :
    dropped connection name = true ↔ lower name ∈ HOP_BY_HOP ∨ Nominates connection (lower name) := by
  rw [dropped, List.contains_iff_mem, List.mem_append]
  rfl

theorem cleanHeaders_items (connection : Text) (d : Dict Text Text) :
    cleanHeaders connection d.items = d.filter fun e => !dropped connection e.1 :=
  Dict.ofPairs_items (d.filter fun e => !dropped connection e.1)

theorem get?_cleanHeaders (connection : Text) (d : Dict Text Text) (name : Text) :
    (cleanHeaders connection d.items).get? name =
      if dropped connection name = true then none else d.get? name := by
  rw [cleanHeaders_items, Dict.get?_filter (q := fun name => !dropped connection name) fun _ => rfl]
  cases dropped connection name <;> rfl

theorem dropped_connection (connection : Text) : dropped connection "connection" = true := by
  exact dropped_iff.mpr (Or.inl (by decide))

/-! ## The bounded copy -/

/-- `bounded_request` copies the headers of this name. -/
def copied (a : UpstreamAnswer) (name : Text) : Bool :=
  !dropped ((a.headers.get? "connection").getD []) name &&
    (((a.headers.get? "content-encoding").getD []).isEmpty ||
      !(REPRESENTATION_HEADERS ++ [("content-encoding" : Text)]).contains (lower name))

theorem boundedHeaders_eq (a : UpstreamAnswer) :
    boundedHeaders a = a.headers.filter fun e => copied a e.1 := by
  unfold boundedHeaders
  rw [cleanHeaders_items]
  refine Dict.ext_items ?_
  split
  next hcoding =>
    refine List.filter_congr fun e _ => ?_
    rw [copied, hcoding, Bool.true_or, Bool.and_true]
  next hcoding =>
    refine List.filter_filter.trans (List.filter_congr fun e _ => ?_)
    rw [copied, Bool.eq_false_iff.mpr hcoding, Bool.false_or, Bool.and_comm]

theorem boundedResponse_ok {cfg : Config} {a : UpstreamAnswer} {up : UpstreamResponse}
    (h : boundedResponse cfg a = .ok up) :
    up.status = a.status ∧ up.content = a.body ∧ up.setCookie = a.setCookie ∧
      isAsciiMap (boundedHeaders a) = true ∧
      up.headers = if a.body.isEmpty = true then boundedHeaders a
        else (boundedHeaders a).set "content-length" (toString a.body.length).toList := by
  unfold boundedResponse at h
  split at h
  · cases h
  · split at h
    next hascii =>
      cases h
      exact ⟨rfl, rfl, rfl, hascii, rfl⟩
    next => cases h

/-- What `bounded_request` leaves of the headers. -/
structure Bounded (up : UpstreamResponse) : Prop where
  names : up.headers.AllKeys LowerCase
  connection : up.headers.get? "connection" = none

theorem bounded_of_reported {cfg : Config} {a : UpstreamAnswer} {up : UpstreamResponse}
    (ha : Reported a) (h : boundedResponse cfg a = .ok up) : Bounded up := by
  obtain ⟨-, -, -, -, hheaders⟩ := boundedResponse_ok h
  rw [boundedHeaders_eq] at hheaders
  have hnames := ha.names.filter fun e => copied a e.1
  have hconn : (a.headers.filter fun e => copied a e.1).get? "connection" = none := by
    rw [Dict.get?_filter (q := copied a) fun _ => rfl, copied, dropped_connection]
    rfl
  split at hheaders
  · exact ⟨hheaders ▸ hnames, hheaders ▸ hconn⟩
  · refine ⟨hheaders ▸ hnames.set (by decide) _, ?_⟩
    rw [hheaders, Dict.get?_set, if_neg (by decide), hconn]

/-! ## The fields of a response -/

/-- The values of the fields of a name, in order. -/
def Response.lines (r : Response) (name : Text) : List Text := Dict.values name r.rawHeaders

/-- Name and value have a Latin-1 encoding. -/
def latin1Field (e : Text × Text) : Bool := isLatin1 e.1 && isLatin1 e.2

/-- The fields that Starlette writes. -/
def fields (content : Bytes) (status : Nat) (headers : Dict Text Text) (mediaType : Option Text) :
    List (Text × Text) :=
  folded headers ++ populated content status ((folded headers).map Prod.fst) mediaType

theorem Response.make_eq (content : Bytes) (status : Nat) (headers : Dict Text Text)
    (mediaType : Option Text) :
    Response.make content status headers mediaType =
      if (fields content status headers mediaType).all latin1Field = true then
        .ok ⟨status, fields content status headers mediaType, content⟩
      else .error .unicodeError := rfl

/-- The length, which every response with a body has. -/
def lengthField (content : Bytes) (status : Nat) : List (Text × Text) :=
  populated content status [] none

theorem folded_of_lowerCase {d : Dict Text Text} (h : d.AllKeys LowerCase) : folded d = d.items := by
  rw [folded, List.map_congr_left (g := id), List.map_id]
  intro e he
  exact Prod.ext (h e.1 (List.mem_map_of_mem he)) rfl

theorem folded_set {d : Dict Text Text} {name : Text} (h : name ∉ d.items.map Prod.fst)
    (value : Text) : folded (d.set name value) = folded d ++ [(lower name, value)] := by
  have hset : (d.set name value).items = d.items ++ [(name, value)] := Dict.assign_of_not_mem h
  rw [folded, hset, List.map_append]
  rfl

/-- The headers that both kinds of response repeat. -/
theorem responseHeaders_eq {up : UpstreamResponse} (hup : Bounded up) :
    responseHeaders up = up.headers.filter fun e => !dropped [] e.1 := by
  rw [responseHeaders, hup.connection]
  exact cleanHeaders_items [] up.headers

theorem responseHeaders_names {up : UpstreamResponse} (hup : Bounded up) :
    (responseHeaders up).AllKeys LowerCase := by
  rw [responseHeaders_eq hup]
  exact hup.names.filter _

theorem get?_responseHeaders {up : UpstreamResponse} (hup : Bounded up) (name : Text) :
    (responseHeaders up).get? name =
      if dropped [] name = true then none else up.headers.get? name := by
  rw [responseHeaders, hup.connection]
  exact get?_cleanHeaders [] up.headers name

theorem length_not_mem {up : UpstreamResponse} (hup : Bounded up) :
    ("content-length" : Text) ∉ (responseHeaders up).items.map Prod.fst := by
  intro hmem
  obtain ⟨⟨name, value⟩, he, rfl⟩ := List.mem_map.mp hmem
  have hget := Dict.mem_items_iff.mp he
  rw [get?_responseHeaders hup, if_pos (by decide)] at hget
  cases hget

theorem populated_of_not_mem {content : Bytes} {status : Nat} {names : List Text}
    (h : ("content-length" : Text) ∉ names) :
    populated content status names none = lengthField content status := by
  simp only [lengthField, populated, List.contains_eq_mem, h, decide_false, List.not_mem_nil]

/-- The fields of a response that repeats an upstream's. -/
def upstreamFields (up : UpstreamResponse) (cacheStatus : Text) : List (Text × Text) :=
  ((responseHeaders up).erase "set-cookie").items ++
    (("x-cache-status" : Text), cacheStatus) :: lengthField up.content up.status ++
    up.setCookie.map fun c => (("set-cookie" : Text), c)

/-- The fields of a response that comes from the cache. -/
def cachedFields (up : UpstreamResponse) (status : CacheStatus) (age : Text) : List (Text × Text) :=
  (responseHeaders up).items ++ (("x-cache-status" : Text), status.value) ::
    (("x-cache-age" : Text), age) :: lengthField up.content up.status

theorem fields_upstream {up : UpstreamResponse} (hup : Bounded up) (cacheStatus : Text) :
    fields up.content up.status
      (((responseHeaders up).erase "set-cookie").set "X-Cache-Status" cacheStatus) none =
      ((responseHeaders up).erase "set-cookie").items ++
        (("x-cache-status" : Text), cacheStatus) :: lengthField up.content up.status := by
  have hnames := (responseHeaders_names hup).erase "set-cookie"
  have hnew : ("X-Cache-Status" : Text) ∉
      ((responseHeaders up).erase "set-cookie").items.map Prod.fst :=
    fun hmem => absurd (hnames _ hmem) (by decide)
  have hlower : lower "X-Cache-Status" = "x-cache-status" := by decide
  have hlength : ("content-length" : Text) ∉
      (((responseHeaders up).erase "set-cookie").items ++
        [(("x-cache-status" : Text), cacheStatus)]).map Prod.fst := by
    rw [List.map_append, List.mem_append]
    rintro (hmem | hmem)
    · exact length_not_mem hup ((List.filter_sublist.map Prod.fst).subset hmem)
    · have heq : ("content-length" : Text) = "x-cache-status" := List.mem_singleton.mp hmem
      exact absurd heq (by decide)
  rw [fields, folded_set hnew, folded_of_lowerCase hnames, hlower, populated_of_not_mem hlength,
    List.append_assoc]
  rfl

theorem fromUpstream_eq {up : UpstreamResponse} (hup : Bounded up) (cacheStatus : Text) :
    fromUpstream up cacheStatus =
      if (upstreamFields up cacheStatus).all latin1Field = true then
        .ok ⟨up.status, upstreamFields up cacheStatus, up.content⟩
      else .error .unicodeError := by
  have hcookies : (up.setCookie.map fun c => (("set-cookie" : Text), c)).all latin1Field =
      up.setCookie.all isLatin1 := by
    rw [List.all_map]
    rfl
  rw [fromUpstream, Response.make_eq, fields_upstream hup, upstreamFields]
  generalize ((responseHeaders up).erase "set-cookie").items ++ _ = front
  rw [List.all_append, hcookies]
  cases front.all latin1Field <;> cases up.setCookie.all isLatin1 <;> rfl

/-- A declared type is the type among the headers, so it is not written again. -/
theorem populated_mediaType {up : UpstreamResponse} (hup : Bounded up) {names : List Text}
    (hnames : ∀ name ∈ (responseHeaders up).items.map Prod.fst, name ∈ names)
    (hlength : ("content-length" : Text) ∉ names) :
    populated up.content up.status names (up.headers.get? "content-type") =
      lengthField up.content up.status := by
  rw [← populated_of_not_mem hlength]
  cases htype : up.headers.get? "content-type" with
  | none => rfl
  | some t =>
    have hget : (responseHeaders up).get? "content-type" = some t := by
      rw [get?_responseHeaders hup, if_neg (by decide), htype]
    have hmem := hnames _ (List.mem_map_of_mem (Dict.mem_items_iff.mpr hget))
    have hcontains : names.contains "content-type" = true := List.contains_iff_mem.mpr hmem
    simp only [populated, hcontains, if_true]

theorem fields_cached {up : UpstreamResponse} (hup : Bounded up) (status : CacheStatus)
    (age : Text) :
    fields up.content up.status
      (((responseHeaders up).set "X-Cache-Status" status.value).set "X-Cache-Age" age)
      (up.headers.get? "content-type") = cachedFields up status age := by
  have hnames := responseHeaders_names hup
  have hstatus : ("X-Cache-Status" : Text) ∉ (responseHeaders up).items.map Prod.fst :=
    fun hmem => absurd (hnames _ hmem) (by decide)
  have hset : ((responseHeaders up).set "X-Cache-Status" status.value).items =
      (responseHeaders up).items ++ [(("X-Cache-Status" : Text), status.value)] :=
    Dict.assign_of_not_mem hstatus
  have hage : ("X-Cache-Age" : Text) ∉
      ((responseHeaders up).set "X-Cache-Status" status.value).items.map Prod.fst := by
    rw [hset, List.map_append, List.mem_append]
    rintro (hmem | hmem)
    · exact absurd (hnames _ hmem) (by decide)
    · have heq : ("X-Cache-Age" : Text) = "X-Cache-Status" := List.mem_singleton.mp hmem
      exact absurd heq (by decide)
  have hfolded : folded (((responseHeaders up).set "X-Cache-Status" status.value).set
      "X-Cache-Age" age) = (responseHeaders up).items ++
        [(("x-cache-status" : Text), status.value), ("x-cache-age", age)] := by
    rw [folded_set hage, folded_set hstatus, folded_of_lowerCase hnames, List.append_assoc]
    rfl
  have hlength : ("content-length" : Text) ∉ ((responseHeaders up).items ++
      [(("x-cache-status" : Text), status.value), ("x-cache-age", age)]).map Prod.fst := by
    rw [List.map_append, List.mem_append]
    rintro (hmem | hmem)
    · exact length_not_mem hup hmem
    · have hmem' : ("content-length" : Text) ∈ [("x-cache-status" : Text), "x-cache-age"] := hmem
      exact absurd hmem' (by decide)
  rw [fields, hfolded, populated_mediaType hup _ hlength, List.append_assoc]
  · rfl
  · intro name hname
    rw [List.map_append]
    exact List.mem_append_left _ hname

theorem fromCache_eq {up : UpstreamResponse} (hup : Bounded up) (freshFor : Nat)
    (stored now : Time) (status : CacheStatus) :
    fromCache (.build up freshFor stored) status now =
      let age := (CachedResponse.build up freshFor stored).ageText now
      if (cachedFields up status age).all latin1Field = true then
        .ok ⟨up.status, cachedFields up status age, up.content⟩
      else .error .unicodeError := by
  simp only [fromCache, CachedResponse.body, CachedResponse.build, Base64.b64decode_b64encode]
  rw [Response.make_eq, fields_cached hup]
  rfl

/-! ## Answers as the proxy passes them on -/

/-- The response of a request that got this answer, at once or out of the cache, with
the cache status that the gateway has found. -/
inductive Proxied (cfg : Config) (a : UpstreamAnswer) : Text → Response → Prop
  | upstream {up : UpstreamResponse} {cacheStatus : Text} {r : Response} :
      cacheStatus ∈ [("MISS" : Text), "BYPASS", "PASS"] → boundedResponse cfg a = .ok up →
        fromUpstream up cacheStatus = .ok r → Proxied cfg a cacheStatus r
  | cached {up : UpstreamResponse} {freshFor : Nat} {stored now : Time} {status : CacheStatus}
      {r : Response} :
      status ≠ .miss → boundedResponse cfg a = .ok up → responseCacheable up = true →
        fromCache (.build up freshFor stored) status now = .ok r → Proxied cfg a status.value r

/-- The fields that do not come from the header map of the upstream. -/
def gatewayFields : List Text := ["x-cache-status", "x-cache-age", "content-length", "set-cookie"]

theorem lengthField_names {content : Bytes} {status : Nat} :
    ∀ e ∈ lengthField content status, e.1 = "content-length" := by
  intro e he
  simp only [lengthField, populated, List.append_nil] at he
  split at he
  · cases he
  · rw [List.mem_singleton.mp he]

theorem values_of_names {name k : Text} {es : List (Text × Text)} (h : ∀ e ∈ es, e.1 = k)
    (hne : k ≠ name) : Dict.values name es = [] := by
  rw [Dict.values, List.map_eq_nil_iff, List.filter_eq_nil_iff]
  intro e he heq
  exact hne ((h e he).symm.trans (of_decide_eq_true heq))

variable {cfg : Config} {a : UpstreamAnswer} {up : UpstreamResponse} {r : Response}
  {cacheStatus : Text}

theorem fromUpstream_ok (hup : Bounded up)
    (h : fromUpstream up cacheStatus = .ok r) :
    r = ⟨up.status, upstreamFields up cacheStatus, up.content⟩ := by
  rw [fromUpstream_eq hup] at h
  split at h
  · exact (Except.ok.inj h).symm
  · cases h

theorem fromCache_ok {freshFor : Nat} {stored now : Time} {status : CacheStatus} (hup : Bounded up)
    (h : fromCache (.build up freshFor stored) status now = .ok r) :
    ∃ age, r = ⟨up.status, cachedFields up status age, up.content⟩ := by
  rw [fromCache_eq hup] at h
  simp only at h
  split at h
  · exact ⟨_, (Except.ok.inj h).symm⟩
  · cases h

theorem values_upstreamFields {name : Text} (hname : name ∉ gatewayFields) :
    Dict.values name (upstreamFields up cacheStatus) =
      ((responseHeaders up).get? name).toList := by
  simp only [gatewayFields, List.mem_cons, List.not_mem_nil, or_false, not_or] at hname
  obtain ⟨hstatus, -, hlength, hcookie⟩ := hname
  have hcookies : Dict.values name (up.setCookie.map fun c => (("set-cookie" : Text), c)) = [] := by
    refine values_of_names (k := "set-cookie") (fun e he => ?_) (Ne.symm hcookie)
    obtain ⟨c, -, rfl⟩ := List.mem_map.mp he
    rfl
  rw [upstreamFields, Dict.values_append, Dict.values_append, Dict.values_items, Dict.get?_erase,
    if_neg (Ne.symm hcookie), hcookies, List.append_nil, ← List.singleton_append,
    Dict.values_append, values_of_names lengthField_names (Ne.symm hlength),
    values_of_names (k := "x-cache-status") (by simp) (Ne.symm hstatus)]
  simp

theorem values_cachedFields {status : CacheStatus} {age name : Text}
    (hname : name ∉ gatewayFields) :
    Dict.values name (cachedFields up status age) = ((responseHeaders up).get? name).toList := by
  simp only [gatewayFields, List.mem_cons, List.not_mem_nil, or_false, not_or] at hname
  obtain ⟨hstatus, hage, hlength, -⟩ := hname
  rw [cachedFields, Dict.values_append, Dict.values_items, ← List.singleton_append,
    Dict.values_append, ← List.singleton_append (l := lengthField _ _), Dict.values_append,
    values_of_names lengthField_names (Ne.symm hlength),
    values_of_names (k := "x-cache-status") (by simp) (Ne.symm hstatus),
    values_of_names (k := "x-cache-age") (by simp) (Ne.symm hage)]
  simp

theorem lowerCase_fields {d : Dict Text Text} (hd : d.AllKeys LowerCase) :
    ∀ e ∈ d.items, LowerCase e.1 := fun _ he => hd _ (List.mem_map_of_mem he)

/-- What the optimizer can rely on: names in lower case, and one field for each
header of the upstream. -/
theorem Proxied.fields (ha : Reported a) (hr : Proxied cfg a cacheStatus r) :
    r.content = a.body ∧ (∀ e ∈ r.rawHeaders, LowerCase e.1) ∧
      ∀ name ∉ gatewayFields, r.lines name = (r.header name).toList := by
  have hlength : ∀ (content : Bytes) (status : Nat), ∀ e ∈ lengthField content status,
      LowerCase e.1 := by
    intro content status e he
    rw [lengthField_names e he]
    decide
  have hone : ∀ {name : Text} {o : Option Text}, r.lines name = o.toList →
      r.lines name = (r.header name).toList := by
    intro name o h
    rw [Response.header, Dict.lookup_eq_head?, ← Response.lines, h]
    cases o <;> rfl
  cases hr with
  | upstream _ hb hr =>
    have hup := bounded_of_reported ha hb
    have hcontent := (boundedResponse_ok hb).2.1
    have hraw := fromUpstream_ok hup hr
    subst hraw
    refine ⟨hcontent, fun e he => ?_, fun name hname => hone (values_upstreamFields hname)⟩
    rcases List.mem_append.mp he with he | he
    · rcases List.mem_append.mp he with he | he
      · exact lowerCase_fields ((responseHeaders_names hup).erase "set-cookie") e he
      · rcases List.mem_cons.mp he with rfl | he
        · show LowerCase "x-cache-status"
          decide
        · exact hlength _ _ e he
    · obtain ⟨c, -, rfl⟩ := List.mem_map.mp he
      show LowerCase "set-cookie"
      decide
  | cached _ hb hfit hr =>
    have hup := bounded_of_reported ha hb
    have hcontent := (boundedResponse_ok hb).2.1
    obtain ⟨age, hraw⟩ := fromCache_ok hup hr
    subst hraw
    refine ⟨hcontent, fun e he => ?_, fun name hname => hone (values_cachedFields hname)⟩
    rcases List.mem_append.mp he with he | he
    · exact lowerCase_fields (responseHeaders_names hup) e he
    · rcases List.mem_cons.mp he with rfl | he
      · show LowerCase "x-cache-status"
        decide
      · rcases List.mem_cons.mp he with rfl | he
        · show LowerCase "x-cache-age"
          decide
        · exact hlength _ _ e he

end Proxy
end AdaptiveGateway
