/-
The fixed response modes.

Outside the adaptive mode the plan of the optimizer depends on neither the tier of
the client nor the cache origin, so two runs on one upstream answer send the same
bytes under the same description.  The fields of the cache itself are the exception,
and the cookies, which a cached answer does not have.
-/
import AdaptiveGateway.Optimizer.Marker
import AdaptiveGateway.Optimizer.Stripping
import AdaptiveGateway.Proxy.Fidelity

namespace AdaptiveGateway

namespace Optimizer

open Codec Proxy
open Python.Value (get)
open Proxy (Request Response NetworkQuality)

/-! ## Two origins of one answer -/

section Origins

variable {gw : Config} {a : UpstreamAnswer} {r r' : Response} {s s' : Text}

/-- The fields of a response that the proxy took from the upstream. -/
theorem proxied_lines (ha : Reported a) (hr : Proxied gw a s r) :
    ∃ up, boundedResponse gw a = .ok up ∧ r.status = up.status ∧ r.content = up.content ∧
      ∀ name ∉ gatewayFields, r.lines name = ((responseHeaders up).get? name).toList := by
  cases hr with
  | upstream _ hb hr =>
    have hraw := fromUpstream_ok (bounded_of_reported ha hb) hr
    subst hraw
    exact ⟨_, hb, rfl, rfl, fun name hname => values_upstreamFields hname⟩
  | cached _ hb _ hr =>
    obtain ⟨age, hraw⟩ := fromCache_ok (bounded_of_reported ha hb) hr
    subst hraw
    exact ⟨_, hb, rfl, rfl, fun name hname => values_cachedFields hname⟩

/-- Two responses made of one upstream answer, at once or out of the cache. -/
structure SameOrigin (r r' : Response) : Prop where
  status : r'.status = r.status
  content : r'.content = r.content
  header : ∀ name ∉ gatewayFields, r'.header name = r.header name
  names : ∀ e ∈ r.rawHeaders, LowerCase e.1
  names' : ∀ e ∈ r'.rawHeaders, LowerCase e.1

theorem proxied_sameOrigin (ha : Reported a) (hr : Proxied gw a s r) (hr' : Proxied gw a s' r') :
    SameOrigin r r' := by
  obtain ⟨up, hup, hstatus, hcontent, hlines⟩ := proxied_lines ha hr
  obtain ⟨up', hup', hstatus', hcontent', hlines'⟩ := proxied_lines ha hr'
  rw [hup] at hup'
  cases hup'
  refine ⟨hstatus'.trans hstatus.symm, hcontent'.trans hcontent.symm, fun name hname => ?_,
    (hr.fields ha).2.1, (hr'.fields ha).2.1⟩
  rw [Response.header, Response.header, Dict.lookup_eq_head?, Dict.lookup_eq_head?,
    ← Response.lines, ← Response.lines, hlines name hname, hlines' name hname]

end Origins

/-! ## Two runs -/

section Runs

variable {lib : Libraries} {cfg : Settings} {req : Request} {st : State} {r r' : Response}
  (quality : NetworkQuality) (cached : Bool)

theorem eligible_sameOrigin (h : SameOrigin r r') (he : eligible req st r = true) :
    eligible { req with networkQuality := quality } { st with servedFromCache := cached } r' =
      true := by
  rw [eligible_iff] at he ⊢
  obtain ⟨hopt, hjson, hstatus, hmethod, hcontrol, hcoding⟩ := he
  refine ⟨hopt, ?_, h.status.trans hstatus, hmethod, ?_, ?_⟩
  · rw [isJson, h.header _ (by decide)]
    exact hjson
  · rw [h.header _ (by decide)]
    exact hcontrol
  · rw [h.header _ (by decide)]
    exact hcoding

/-- An eligible response has no coding yet, under any spelling of the name. -/
theorem no_coding (hnames : ∀ e ∈ r.rawHeaders, LowerCase e.1) (he : eligible req st r = true) :
    (r.rawHeaders.any fun e => lower e.1 == ("content-encoding" : Text)) = false := by
  have hnone := (eligible_iff.mp he).2.2.2.2.2
  rw [List.any_eq_false]
  intro e he' heq
  rw [hnames e he', beq_iff_eq] at heq
  obtain ⟨v, hv⟩ := Dict.exists_lookup_of_mem (k := e.1) (v := e.2) he'
  rw [heq] at hv
  rw [Response.header, hv] at hnone
  cases hnone

variable (lib) in
/-- Outside the adaptive mode the plan is that of the other run. -/
theorem plan_fixed (hmode : modeOf cfg ≠ .adaptive) (h : SameOrigin r r')
    (he : eligible req st r = true) :
    plan lib cfg { req with networkQuality := quality } { st with servedFromCache := cached } r' =
      plan lib cfg req st r := by
  have he' := eligible_sameOrigin quality cached h he
  have hmode' : (modeOf cfg == ResponseMode.adaptive) = false := beq_false_of_ne hmode
  simp only [plan, reduce, gzip, removesFields, usesSkeleton, compresses, hmode', Bool.false_and,
    Bool.or_false, h.content, no_coding h.names he, no_coding h.names' he', Request.header]

end Runs

/-! ## No run raises -/

section Total

variable {lib : Libraries} {cfg : Settings} {req : Request} {st : State} {r : Response}

theorem mem_intercalate {sep : Text} {ts : List Text} {c : Char} (h : c ∈ sep.intercalate ts) :
    c ∈ sep ∨ ∃ t ∈ ts, c ∈ t := by
  induction ts with
  | nil => simp [List.intercalate] at h
  | cons t ts ih =>
    cases ts with
    | nil => exact .inr ⟨t, List.mem_cons_self, by simpa [List.intercalate] using h⟩
    | cons u ts =>
      have hjoin : sep.intercalate (t :: u :: ts) = t ++ sep ++ sep.intercalate (u :: ts) := by
        simp [List.intercalate]
      rw [hjoin, List.mem_append, List.mem_append] at h
      rcases h with (h | h) | h
      · exact .inr ⟨t, List.mem_cons_self, h⟩
      · exact .inl h
      · exact (ih h).imp_right fun ⟨x, hx, hc⟩ => ⟨x, List.mem_cons_of_mem t hx, hc⟩

theorem isLatin1_of_subset {t u : Text} (h : t ⊆ u) (hu : isLatin1 u = true) : isLatin1 t = true := by
  rw [isLatin1, List.all_eq_true] at hu ⊢
  exact fun c hc => hu c (h hc)

theorem latin1Field_mk {name value : Text} (hname : isLatin1 name = true)
    (hvalue : isLatin1 value = true) : latin1Field (name, value) = true :=
  Bool.and_eq_true_iff.mpr ⟨hname, hvalue⟩

/-- A field that is there could be written. -/
theorem header_latin1 (hr : r.rawHeaders.all latin1Field = true) {name value : Text}
    (h : r.header name = some value) : latin1Field (name, value) = true :=
  List.all_eq_true.mp hr _ (Dict.mem_of_lookup h)

theorem varyValue_latin1 (hr : r.rawHeaders.all latin1Field = true) :
    isLatin1 (varyValue r) = true := by
  have hold : isLatin1 ((r.header "vary").getD []) = true := by
    cases h : r.header "vary" with
    | none => rfl
    | some value => exact (Bool.and_eq_true_iff.mp (header_latin1 hr h)).2
  have hnames : ∀ name ∈ varyNames, isLatin1 name = true := by decide
  rw [isLatin1, List.all_eq_true]
  intro c hc
  rcases mem_intercalate hc with hsep | ⟨m, hm, hcm⟩
  · have hseps : ∀ c ∈ [',', ' '], decide (c.toNat < 256) = true :=
      List.all_eq_true.mp (by decide)
    exact hseps c hsep
  · have hlatin : isLatin1 m = true := by
      rcases (foldl_addName varyNames _).2.2 m hm with hm | hm
      · obtain ⟨part, hpart, rfl⟩ := List.mem_map.mp (List.mem_filter.mp hm).1
        exact isLatin1_of_subset
          (List.Subset.trans (strip_subset part) (splitOn_subset _ part hpart)) hold
      · exact hnames m hm
    exact List.all_eq_true.mp hlatin c hcm

theorem mem_items_set {d : Dict Text Text} {k v : Text} {e : Text × Text}
    (h : e ∈ (d.set k v).items) : e = (k, v) ∨ e ∈ d.items := by
  have hget := Dict.mem_items_iff.mp (show (e.1, e.2) ∈ _ from h)
  rw [Dict.get?_set] at hget
  split at hget
  next hk =>
    subst hk
    cases hget
    exact .inl rfl
  next => exact .inr (Dict.mem_items_iff.mpr hget)

theorem description_latin1 (p : Plan) (hr : r.rawHeaders.all latin1Field = true) :
    ∀ e ∈ (p.description r).items, latin1Field e = true := by
  intro ⟨name, value⟩ he
  have hget := Dict.mem_items_iff.mp he
  rw [get?_description] at hget
  split at hget
  next h =>
    cases hget
    rw [← h.2]
    decide
  next =>
    split at hget
    · cases hget
    · split at hget
      next h =>
        cases hget
        rw [← h.2]
        decide
      next =>
        split at hget
        · cases hget
        · split at hget
          next h =>
            obtain rfl := Option.some.inj hget
            rw [← h]
            exact latin1Field_mk (by decide) (varyValue_latin1 hr)
          next => exact header_latin1 hr hget

theorem headers_latin1 (p : Plan) (hr : r.rawHeaders.all latin1Field = true) :
    ∀ e ∈ (p.headers r).items, latin1Field e = true := by
  have hmode : isLatin1 p.mode.value = true := by cases p.mode <;> decide
  have hadaptive : isLatin1 (p.adaptiveMode r.content) = true := by
    unfold Plan.adaptiveMode
    split
    · decide
    · split <;> decide
  intro e he
  rcases mem_items_set he with rfl | he
  · show latin1Field (_, if p.reducedBody ≠ r.content then _ else _) = true
    split <;> decide
  · rcases mem_items_set he with rfl | he
    · exact latin1Field_mk (by decide) hadaptive
    · rcases mem_items_set he with rfl | he
      · exact latin1Field_mk (by decide) hmode
      · exact description_latin1 p hr e he

/-- The answer to a client that takes neither of the two codings. -/
def refusal (r : Response) : Response where
  status := 406
  rawHeaders := [("vary", varyValue r), ("cache-control", "no-store"), ("content-length", "0")]
  content := []

theorem notAcceptable_eq (hr : r.rawHeaders.all latin1Field = true) :
    notAcceptable r = .ok (refusal r) := by
  have hfields : ∀ vary : Text,
      fields [] 406 ⟨[("vary", vary), ("cache-control", "no-store")], by simp⟩ none =
        ([("vary", vary), ("cache-control", "no-store"), ("content-length", "0")] :
          List (Text × Text)) := fun _ => rfl
  have hall : (refusal r).rawHeaders.all latin1Field = true := by
    rw [refusal, List.all_cons, latin1Field_mk (by decide) (varyValue_latin1 hr)]
    decide
  rw [refusal] at hall ⊢
  rw [notAcceptable, Response.make_eq, hfields, if_pos hall]

theorem rebuilt_ok (p : Plan) (status : Nat) (hr : r.rawHeaders.all latin1Field = true)
    (hnames : ∀ e ∈ r.rawHeaders, LowerCase e.1) :
    Response.make p.sent status (p.headers r) none =
      .ok ⟨status, fields p.sent status (p.headers r) none, p.sent⟩ := by
  rw [Response.make_eq, if_pos]
  rw [fields, folded_of_lowerCase (headers_names p hnames), List.all_append, Bool.and_eq_true]
  refine ⟨List.all_eq_true.mpr (headers_latin1 p hr), List.all_eq_true.mpr fun e he => ?_⟩
  simp only [populated, List.append_nil] at he
  split at he
  · cases he
  · rw [List.mem_singleton.mp he]
    exact latin1Field_of_isAscii (by decide) (isAscii_digits _)

variable (lib cfg) in
/-- The optimizer answers every eligible response, with a 406 if it refuses it. -/
theorem dispatch_total (hr : r.rawHeaders.all latin1Field = true)
    (hnames : ∀ e ∈ r.rawHeaders, LowerCase e.1) (he : eligible req st r = true) :
    ∃ out, dispatch lib cfg req st r = .ok out ∧
      (Refused lib cfg req st r ∧ out = refusal r ∨
        ¬Refused lib cfg req st r ∧ out.status = 200) := by
  generalize hp : plan lib cfg req st r = p
  by_cases hrefused : (p.gzipped.isNone &&
      !acceptsIdentity lib.py ((req.header "accept-encoding").getD [])) = true
  · have hout : dispatch lib cfg req st r = .ok (refusal r) := by
      simp only [dispatch, he, if_true, hp, hrefused, notAcceptable_eq hr]
    have hrefused' : Refused lib cfg req st r := by
      rw [Bool.and_eq_true, Option.isNone_iff_eq_none, Bool.not_eq_true'] at hrefused
      exact ⟨he, hrefused.2, by rw [← hrefused.1, ← hp]; rfl⟩
    exact ⟨refusal r, hout, .inl ⟨hrefused', rfl⟩⟩
  · have hnot : ¬Refused lib cfg req st r := by
      intro h
      have hnone : p.gzipped = none := by rw [← hp]; exact h.2.2
      rw [hnone, h.2.1] at hrefused
      exact hrefused rfl
    have hmake := rebuilt_ok p r.status hr hnames
    simp only [dispatch, he, if_true, hp, Bool.eq_false_iff.mpr hrefused, hmake, Bool.false_eq_true,
      if_false]
    exact ⟨_, rfl, .inr ⟨hnot, (eligible_iff.mp he).2.2.1⟩⟩

end Total

/-! ## Fixed modes -/

section Fixed

variable {gw : Config} {lib : Libraries} {cfg : Settings} {req : Request} {st : State}
  {a : UpstreamAnswer} {r r' : Response} {s s' : Text}

theorem proxied_latin1 (ha : Reported a) (hr : Proxied gw a s r) :
    r.rawHeaders.all latin1Field = true := by
  cases hr with
  | upstream _ hb hr =>
    rw [fromUpstream_eq (bounded_of_reported ha hb)] at hr
    split at hr
    next h =>
      cases hr
      exact h
    next => cases hr
  | cached _ hb _ hr =>
    rw [fromCache_eq (bounded_of_reported ha hb)] at hr
    dsimp only at hr
    split at hr
    next h =>
      cases hr
      exact h
    next => cases hr

/-- The names of the fields that tell where an answer comes from. -/
def originFields : List Text := ["x-cache-status", "x-cache-age", "set-cookie"]

theorem refusal_sameOrigin (h : SameOrigin r r') : refusal r' = refusal r := by
  have hvary : varyValue r' = varyValue r := by rw [varyValue, varyValue, h.header _ (by decide)]
  rw [refusal, hvary, refusal]

/-- The header map of the other run is the same, up to the fields of the cache. -/
theorem headers_sameOrigin (p : Plan) (h : SameOrigin r r') {name : Text}
    (hname : name ∉ gatewayFields) : (p.headers r').get? name = (p.headers r).get? name := by
  have hvary : varyValue r' = varyValue r := by rw [varyValue, varyValue, h.header _ (by decide)]
  simp only [Plan.headers, Dict.get?_set, get?_description, h.content, hvary, h.header name hname]

/-- The response carries `body`, compressed if it says so. -/
def Carries (lib : Libraries) (out : Response) (body : Bytes) : Prop :=
  out.content = if out.lines "content-encoding" = ["gzip"] then lib.compress body else body

variable (lib) in
theorem refused_fixed (quality : NetworkQuality) (cached : Bool) (hmode : modeOf cfg ≠ .adaptive)
    (h : SameOrigin r r') (he : eligible req st r = true) :
    Refused lib cfg { req with networkQuality := quality } { st with servedFromCache := cached } r' ↔
      Refused lib cfg req st r := by
  have hplan := congrArg Plan.gzipped (plan_fixed lib quality cached hmode h he)
  have he' := eligible_sameOrigin quality cached h he
  refine and_congr (iff_of_true he' he) (and_congr Iff.rfl ?_)
  exact iff_of_eq (congrArg (· = none) hplan)

variable {out out' : Response}

/-- Two 200 answers with one plan carry the same fields. -/
theorem lines_sameOrigin (quality : NetworkQuality) (cached : Bool) (hmode : modeOf cfg ≠ .adaptive)
    (h : SameOrigin r r') (he : eligible req st r = true)
    (hout : dispatch lib cfg req st r = .ok out) (h200 : out.status = 200)
    (hout' : dispatch lib cfg { req with networkQuality := quality }
      { st with servedFromCache := cached } r' = .ok out') (h200' : out'.status = 200) :
    out'.content = out.content ∧ ∀ name ∉ originFields, out'.lines name = out.lines name := by
  have he' := eligible_sameOrigin quality cached h he
  have hplan := plan_fixed lib quality cached hmode h he
  have hcontent : out'.content = out.content := by
    rw [(dispatch_ok h.names he hout h200).1, (dispatch_ok h.names' he' hout' h200').1, hplan]
  refine ⟨hcontent, fun name hname => ?_⟩
  simp only [originFields, List.mem_cons, List.not_mem_nil, or_false, not_or] at hname
  obtain ⟨hstatus, hage, hcookie⟩ := hname
  by_cases hlength : name = "content-length"
  · subst hlength
    rw [lines_length h.names he hout h200, lines_length h.names' he' hout' h200', hcontent]
  · have hname : name ∉ [("content-length" : Text), "set-cookie"] := by
      simp only [List.mem_cons, List.not_mem_nil, or_false, not_or]
      exact ⟨hlength, hcookie⟩
    have hgateway : name ∉ gatewayFields := by
      simp only [gatewayFields, List.mem_cons, List.not_mem_nil, or_false, not_or]
      exact ⟨hstatus, hage, hlength, hcookie⟩
    rw [lines_eq h.names he hout h200 hname, lines_eq h.names' he' hout' h200' hname, hplan,
      headers_sameOrigin _ h hgateway]

/-- A 200 answer carries the body of its plan. -/
theorem carries_reduced (hnames : ∀ e ∈ r.rawHeaders, LowerCase e.1) (he : eligible req st r = true)
    (hout : dispatch lib cfg req st r = .ok out) (h200 : out.status = 200) :
    Carries lib out (plan lib cfg req st r).reducedBody := by
  rw [Carries, lines_coding hnames he hout h200, (dispatch_ok hnames he hout h200).1, Plan.sent]
  cases hgz : (plan lib cfg req st r).gzipped with
  | none => rfl
  | some b => exact plan_gzipped hgz

/-- The full mode plans nothing. -/
theorem plan_full (hmode : modeOf cfg = .full) :
    (plan lib cfg req st r).reducedBody = r.content ∧ (plan lib cfg req st r).gzipped = none := by
  simp [plan, reduce, gzip, removesFields, usesSkeleton, compresses, hmode]

/-- The removal modes send the body, or what stripping has made of it. -/
theorem plan_removal (hmode : modeOf cfg = .removal ∨ modeOf cfg = .combined) :
    (plan lib cfg req st r).reducedBody = r.content ∨
      ∃ data, lib.loads r.content = some data ∧
        (plan lib cfg req st r).reducedBody = lib.dumps (stripFields data st.optionalFields) := by
  by_cases hsame : (plan lib cfg req st r).reducedBody = r.content
  · exact .inl hsame
  · obtain ⟨data, hdata, ⟨-, hreduced⟩ | ⟨hskeleton, -⟩⟩ := plan_reduced hsame
    · exact .inr ⟨data, hdata, hreduced⟩
    · have hadaptive := (usesSkeleton_iff.mp hskeleton).1
      rcases hmode with hmode | hmode <;> rw [hmode] at hadaptive <;> cases hadaptive

/-- Outside the adaptive mode, two runs of the optimizer on one upstream answer, for any two
tiers and out of the cache or not, answer with the same status, bytes and fields, apart
from those of the cache and the cookies.  The removal modes keep the length of every array
that they do not remove, and the full mode sends the upstream's bytes or a 406. -/
theorem fixed_modes_ignore_network (hmode : modeOf cfg ≠ .adaptive) (ha : Reported a)
    (hr : Proxied gw a s r) (hr' : Proxied gw a s' r') (he : eligible req st r = true)
    (quality : NetworkQuality) (cached : Bool) :
    ∃ out out', dispatch lib cfg req st r = .ok out ∧
      dispatch lib cfg { req with networkQuality := quality } { st with servedFromCache := cached }
        r' = .ok out' ∧
      out'.status = out.status ∧ out'.content = out.content ∧
      (∀ name ∉ originFields, out'.lines name = out.lines name) ∧
      (modeOf cfg = .removal ∨ modeOf cfg = .combined → out.status = 406 ∨
        ∃ body, Carries lib out body ∧ (body = a.body ∨
          ∃ data, lib.loads a.body = some data ∧
            body = lib.dumps (stripFields data st.optionalFields) ∧
            ∀ path xs, get path data = some (.list xs) →
              get path (stripFields data st.optionalFields) = none ∨
                ∃ ys, get path (stripFields data st.optionalFields) = some (.list ys) ∧
                  ys.length = xs.length)) ∧
      (modeOf cfg = .full → out.status = 406 ∨
        out.content = a.body ∧ out.lines "content-encoding" = []) := by
  have hsame := proxied_sameOrigin ha hr hr'
  have he' := eligible_sameOrigin quality cached hsame he
  have hbody := (hr.fields ha).1
  obtain ⟨out, hout, hcases⟩ := dispatch_total lib cfg (proxied_latin1 ha hr) hsame.names he
  obtain ⟨out', hout', hcases'⟩ := dispatch_total lib cfg (proxied_latin1 ha hr') hsame.names' he'
  have hiff := refused_fixed lib quality cached hmode hsame he
  refine ⟨out, out', hout, hout', ?_⟩
  rcases hcases with ⟨hrefused, rfl⟩ | ⟨hnot, h200⟩
  · rcases hcases' with ⟨-, rfl⟩ | ⟨hnot', -⟩
    · rw [refusal_sameOrigin hsame]
      exact ⟨rfl, rfl, fun _ _ => rfl, fun _ => .inl rfl, fun _ => .inl rfl⟩
    · exact absurd (hiff.mpr hrefused) hnot'
  · rcases hcases' with ⟨hrefused', -⟩ | ⟨-, h200'⟩
    · exact absurd (hiff.mp hrefused') hnot
    · obtain ⟨hcontent, hlines⟩ := lines_sameOrigin quality cached hmode hsame he hout h200 hout' h200'
      refine ⟨h200'.trans h200.symm, hcontent, hlines, fun hremoval => .inr ?_, fun hfull => .inr ?_⟩
      · refine ⟨_, carries_reduced hsame.names he hout h200, ?_⟩
        rw [← hbody]
        refine (plan_removal hremoval).imp_right fun ⟨data, hdata, hdumps⟩ => ?_
        exact ⟨data, hdata, hdumps, fun path xs hxs =>
          get_list_stripFields st.optionalFields (keyed_loaded hdata) hxs⟩
      · obtain ⟨hreduced, hgzipped⟩ : (plan lib cfg req st r).reducedBody = r.content ∧
            (plan lib cfg req st r).gzipped = none := plan_full hfull
        refine ⟨?_, ?_⟩
        · rw [(dispatch_ok hsame.names he hout h200).1, Plan.sent, hgzipped, ← hbody]
          exact hreduced
        · rw [lines_coding hsame.names he hout h200, hgzipped]
          rfl

end Fixed

/-! ## A page, fetched and out of the cache -/

/-- The page of the tests, in a form that may be cached. -/
def mockShared : UpstreamAnswer where
  status := 200
  headers := Dict.empty.set "content-type" "application/json"
  setCookie := []
  body := mockAnswer.body

def mockFetched : Response where
  status := 200
  rawHeaders := [("content-type", "application/json"), ("x-cache-status", "MISS"),
    ("content-length", "25")]
  content := mockAnswer.body

def mockCached : Response where
  status := 200
  rawHeaders := [("content-type", "application/json"), ("x-cache-status", "HIT"),
    ("x-cache-age", "7"), ("content-length", "25")]
  content := mockAnswer.body

theorem mockShared_reported : Reported mockShared where
  names := by
    show ∀ k ∈ mockShared.headers.items.map Prod.fst, LowerCase k
    decide
  cookies := by decide

theorem mockShared_proxied : Proxied mockConfig mockShared "MISS" mockFetched ∧
    Proxied mockConfig mockShared "HIT" mockCached := by
  have hup : boundedResponse mockConfig mockShared = .ok ⟨200, ⟨[("content-type", "application/json"),
      ("content-length", "25")], by decide⟩, mockAnswer.body, []⟩ := by decide +kernel
  have hhit : Cache.fromCache (.build ⟨200, ⟨[("content-type", "application/json"),
      ("content-length", "25")], by decide⟩, mockAnswer.body, []⟩ 60 0) .hit (seconds 7) =
      .ok mockCached := by decide +kernel
  exact ⟨.upstream List.mem_cons_self hup (by decide +kernel),
    .cached (by decide) hup (by decide) hhit⟩

/-- A poor client on a miss and a good one on a hit read the same reduced page. -/
theorem fixed_modes_ignore_network_mock :
    ∃ out out', dispatch mockLibraries { mockSettings with responseMode := .removal } mockRequest
        mockState mockFetched = .ok out ∧
      dispatch mockLibraries { mockSettings with responseMode := .removal }
        { mockRequest with networkQuality := .good } { mockState with servedFromCache := true }
        mockCached = .ok out' ∧
      out.content = mockSkeleton.content ∧ out'.content = mockSkeleton.content := by
  have hmode : modeOf { mockSettings with responseMode := .removal } ≠ .adaptive := by decide
  have heligible : eligible mockRequest mockState mockFetched = true := by decide +kernel
  obtain ⟨out, out', hout, hout', -, hcontent, -⟩ := fixed_modes_ignore_network hmode
    mockShared_reported mockShared_proxied.1 mockShared_proxied.2 heligible .good true
  have hstripped : (match dispatch mockLibraries { mockSettings with responseMode := .removal }
      mockRequest mockState mockFetched with
      | .ok out => decide (out.content = mockSkeleton.content)
      | .error _ => false) = true := by decide +kernel
  rw [hout] at hstripped
  have hskeleton := of_decide_eq_true hstripped
  exact ⟨out, out', hout, hout', hskeleton, hcontent.trans hskeleton⟩

end Optimizer

end AdaptiveGateway
