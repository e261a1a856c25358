/-
What the optimizer says about the bytes it sends.

The markers and the header fields of a rebuilt response are compared with its
body and with the response of the proxy.  `dispatch_ok` reduces every question
about a 200 answer to the plan and its header map; `get?_description` and
`decoded_eq` answer them there.
-/
import AdaptiveGateway.Optimizer.Dispatch
import AdaptiveGateway.Proxy.Fields

namespace AdaptiveGateway

namespace Optimizer

open Codec Proxy
open Proxy (Request Response NetworkQuality)

/-! ## The plan -/

section

variable {lib : Libraries} {cfg : Settings} {req : Request} {st : State} {r : Response}

theorem transformJson_ne {it : Interpreter} {body : Bytes} {fields : List Text} {skeleton : Bool}
    (h : transformJson it body fields skeleton ≠ body) :
    ∃ data, it.loads body = some data ∧
      transformJson it body fields skeleton = it.dumps (transformed data fields skeleton) := by
  unfold transformJson at h ⊢
  cases hdata : it.loads body with
  | none =>
    rw [hdata] at h
    exact absurd rfl h
  | some data =>
    rw [hdata] at h
    refine ⟨data, rfl, ?_⟩
    simp only at h ⊢
    by_cases hdeep : it.walkTooDeep data fields skeleton = true
    · rw [if_pos hdeep] at h
      exact absurd rfl h
    · rw [if_neg hdeep] at h ⊢
      by_cases hsame : unchanged (transformed data fields skeleton) data = true
      · rw [if_pos hsame] at h
        exact absurd rfl h
      · rw [if_neg hsame]

theorem not_usesSkeleton {mode : ResponseMode} {quality : NetworkQuality} {cached : Bool}
    (h : removesFields mode quality cached = true) : usesSkeleton mode quality cached = false := by
  revert h
  cases mode <;> cases quality <;> cases cached <;> decide

theorem usesSkeleton_iff {mode : ResponseMode} {quality : NetworkQuality} {cached : Bool} :
    usesSkeleton mode quality cached = true ↔
      mode = .adaptive ∧ quality = .poor ∧ cached = false := by
  cases mode <;> cases quality <;> cases cached <;> decide

/-- The body is changed by one of the two transformations, and which one is told by
`skeleton`. -/
theorem plan_reduced (h : (plan lib cfg req st r).reducedBody ≠ r.content) :
    ∃ data, lib.loads r.content = some data ∧
      ((plan lib cfg req st r).skeleton = false ∧
          (plan lib cfg req st r).reducedBody = lib.dumps (stripFields data st.optionalFields) ∨
        (plan lib cfg req st r).skeleton = true ∧
          (plan lib cfg req st r).reducedBody = lib.dumps (makeSkeleton data st.optionalFields)) := by
  simp only [plan, reduce] at h ⊢
  by_cases hremove : (removesFields (modeOf cfg) req.networkQuality st.servedFromCache &&
      !r.content.isEmpty) = true
  · rw [if_pos hremove] at h ⊢
    obtain ⟨data, hdata, heq⟩ := transformJson_ne h
    exact ⟨data, hdata, Or.inl ⟨not_usesSkeleton (Bool.and_eq_true_iff.mp hremove).1, heq⟩⟩
  · rw [if_neg hremove] at h ⊢
    by_cases hskeleton : (usesSkeleton (modeOf cfg) req.networkQuality st.servedFromCache &&
        !r.content.isEmpty) = true
    · rw [if_pos hskeleton] at h ⊢
      obtain ⟨data, hdata, heq⟩ := transformJson_ne h
      exact ⟨data, hdata, Or.inr ⟨(Bool.and_eq_true_iff.mp hskeleton).1, heq⟩⟩
    · rw [if_neg hskeleton] at h
      exact absurd rfl h

theorem plan_gzipped {b : Bytes} (h : (plan lib cfg req st r).gzipped = some b) :
    b = lib.compress (plan lib cfg req st r).reducedBody := by
  simp only [plan, gzip] at h ⊢
  split at h
  · exact (Option.some.inj h).symm
  · cases h

/-! ## The header map -/

theorem get?_description (p : Plan) (r : Response) (name : Text) :
    (p.description r).get? name =
      if p.sent ≠ r.content ∧ ("cache-control" : Text) = name then some ("private, no-store" : Text)
      else if p.sent ≠ r.content ∧ name ∈ REPRESENTATION_HEADERS then none
      else if p.gzipped.isSome = true ∧ ("content-encoding" : Text) = name then some ("gzip" : Text)
      else if ("content-length" : Text) = name then none
      else if ("vary" : Text) = name then some (varyValue r)
      else r.header name := by
  have hcopy : (((Dict.firsts r.rawHeaders).set "vary" (varyValue r)).erase "content-length").get? name
      = if ("content-length" : Text) = name then none
        else if ("vary" : Text) = name then some (varyValue r) else r.header name := by
    rw [Dict.get?_erase, Dict.get?_set, Dict.get?_firsts]
    rfl
  have hcoded : (if p.gzipped.isSome = true then
        (((Dict.firsts r.rawHeaders).set "vary" (varyValue r)).erase "content-length").set
          "content-encoding" "gzip"
      else ((Dict.firsts r.rawHeaders).set "vary" (varyValue r)).erase "content-length").get? name
      = if p.gzipped.isSome = true ∧ ("content-encoding" : Text) = name then some ("gzip" : Text)
        else if ("content-length" : Text) = name then none
        else if ("vary" : Text) = name then some (varyValue r) else r.header name := by
    by_cases hgz : p.gzipped.isSome = true
    · rw [if_pos hgz, Dict.get?_set, hcopy]
      simp only [hgz, true_and]
    · rw [if_neg hgz, hcopy]
      exact (if_neg fun h => hgz h.1).symm
  simp only [Plan.description]
  by_cases hsent : p.sent ≠ r.content
  · rw [if_pos hsent, Dict.get?_set, Dict.get?_foldl_erase, hcoded]
    by_cases hcontrol : ("cache-control" : Text) = name
    · rw [if_pos hcontrol, if_pos ⟨hsent, hcontrol⟩]
    · have hother : ¬(p.sent ≠ r.content ∧ ("cache-control" : Text) = name) := fun h => hcontrol h.2
      rw [if_neg hcontrol, if_neg hother]
      by_cases hvalidator : name ∈ REPRESENTATION_HEADERS
      · rw [if_pos hvalidator, if_pos ⟨hsent, hvalidator⟩]
      · rw [if_neg hvalidator]
        exact (if_neg fun h => hvalidator h.2).symm
  · rw [if_neg hsent, hcoded]
    exact ((if_neg fun h => hsent h.1).trans (if_neg fun h => hsent h.1)).symm

theorem get?_headers (p : Plan) (r : Response) {name : Text}
    (h : name ∉ [("x-response-completeness" : Text), "x-adaptive-mode", "x-response-mode"]) :
    (p.headers r).get? name = (p.description r).get? name := by
  simp only [List.mem_cons, List.not_mem_nil, or_false, not_or] at h
  rw [Plan.headers, Dict.get?_set, if_neg (Ne.symm h.1), Dict.get?_set, if_neg (Ne.symm h.2.1),
    Dict.get?_set, if_neg (Ne.symm h.2.2)]

theorem headers_names (p : Plan) (hr : ∀ e ∈ r.rawHeaders, LowerCase e.1) :
    (p.headers r).AllKeys LowerCase := by
  have hcopy : (Dict.firsts r.rawHeaders).AllKeys LowerCase := by
    refine Dict.AllKeys.ofPairs fun e he => ?_
    obtain ⟨f, hf, rfl⟩ := List.mem_map.mp he
    exact hr f hf
  have hcoded : ∀ d : Dict Text Text, d.AllKeys LowerCase →
      (if p.gzipped.isSome = true then d.set "content-encoding" "gzip" else d).AllKeys LowerCase := by
    intro d hd
    split
    · exact hd.set (by decide) _
    · exact hd
  have hdescription : (p.description r).AllKeys LowerCase := by
    simp only [Plan.description]
    have h := hcoded _
      ((hcopy.set (k := "vary".toList) (by decide) (varyValue r)).erase "content-length")
    split
    · exact (h.foldl_erase REPRESENTATION_HEADERS).set (by decide) _
    · exact h
  exact ((hdescription.set (by decide) _).set (by decide) _).set (by decide) _

/-! ## A rebuilt response -/

theorem eligible_iff : eligible req st r = true ↔
    st.optimizable = true ∧ isJson r = true ∧ r.status = 200 ∧ req.method = "GET" ∧
      hasSubstring "no-transform" (lower ((r.header "cache-control").getD [])) = false ∧
      r.header "content-encoding" = none := by
  simp only [eligible, Bool.and_eq_true, Bool.not_eq_true', Bool.or_eq_false_iff, bne_eq_false_iff_eq,
    Option.isSome_eq_false_iff, Option.isNone_iff_eq_none, and_assoc]

/-- A 200 answer to an eligible response carries the plan, its header map and the
cookies of the route. -/
theorem dispatch_ok {out : Response} (hr : ∀ e ∈ r.rawHeaders, LowerCase e.1)
    (he : eligible req st r = true) (h : dispatch lib cfg req st r = .ok out)
    (h200 : out.status = 200) :
    out.content = (plan lib cfg req st r).sent ∧
      out.rawHeaders =
        ((((plan lib cfg req st r).headers r).items ++
          [(("content-length" : Text), (toString (plan lib cfg req st r).sent.length).toList)]).filter
            fun e => !isSetCookie e) ++ r.rawHeaders.filter isSetCookie := by
  generalize hp : plan lib cfg req st r = p
  have hstatus := (eligible_iff.mp he).2.2.1
  have hnames := headers_names p hr
  have hlength : ("content-length" : Text) ∉ (p.headers r).items.map Prod.fst := by
    intro hmem
    obtain ⟨⟨name, value⟩, hitem, rfl⟩ := List.mem_map.mp hmem
    have hget := Dict.mem_items_iff.mp hitem
    rw [get?_headers p r (by decide), get?_description] at hget
    simp [REPRESENTATION_HEADERS] at hget
  have hfields : fields p.sent r.status (p.headers r) none = (p.headers r).items ++
      [(("content-length" : Text), (toString p.sent.length).toList)] := by
    rw [fields, folded_of_lowerCase hnames, populated_of_not_mem hlength, hstatus]
    rfl
  simp only [dispatch, he, if_true, hp] at h
  split at h
  · rw [notAcceptable, Response.make_eq] at h
    split at h
    · cases h
      cases h200
    · cases h
  · rw [Response.make_eq, hfields] at h
    split at h
    next heq => cases h
    next heq =>
      split at heq
      · cases heq
        cases h
        exact ⟨rfl, rfl⟩
      · cases heq

section

variable {out : Response}

/-- The cookies come from one list and everything else from the other. -/
theorem values_spliced {es fs : List (Text × Text)} {name : Text} (hname : name ≠ "set-cookie") :
    Dict.values name ((es.filter fun e => !isSetCookie e) ++ fs.filter isSetCookie) =
      Dict.values name es := by
  have hkept := Dict.values_filter (p := fun e => !isSetCookie e)
    (q := fun k => !decide (k = "set-cookie".toList)) (fun _ => rfl) es name
  have hcookies := Dict.values_filter (p := isSetCookie)
    (q := fun k => decide (k = "set-cookie".toList)) (fun _ => rfl) fs name
  rw [Dict.values_append, hkept, hcookies]
  simp only [decide_eq_false hname, Bool.not_false, if_true, Bool.false_eq_true, if_false,
    List.append_nil]

/-- Apart from the length and the cookies, the fields are those of the header map. -/
theorem lines_eq (hr : ∀ e ∈ r.rawHeaders, LowerCase e.1) (he : eligible req st r = true)
    (h : dispatch lib cfg req st r = .ok out) (h200 : out.status = 200) {name : Text}
    (hname : name ∉ [("content-length" : Text), "set-cookie"]) :
    out.lines name = (((plan lib cfg req st r).headers r).get? name).toList := by
  simp only [List.mem_cons, List.not_mem_nil, or_false, not_or] at hname
  rw [Response.lines, (dispatch_ok hr he h h200).2, values_spliced hname.2, Dict.values_append,
    Dict.values_items, values_of_names (k := "content-length") (by simp) (Ne.symm hname.1),
    List.append_nil]

theorem lines_length (hr : ∀ e ∈ r.rawHeaders, LowerCase e.1) (he : eligible req st r = true)
    (h : dispatch lib cfg req st r = .ok out) (h200 : out.status = 200) :
    out.lines "content-length" = [(toString out.content.length).toList] := by
  have hnone : ((plan lib cfg req st r).headers r).get? "content-length" = none := by
    rw [get?_headers _ r (by decide), get?_description]
    simp [REPRESENTATION_HEADERS]
  obtain ⟨hcontent, hraw⟩ := dispatch_ok hr he h h200
  rw [Response.lines, hraw, hcontent, values_spliced (by decide), Dict.values_append,
    Dict.values_items, hnone]
  rfl

/-- A coding is declared exactly where it was applied. -/
theorem lines_coding (hr : ∀ e ∈ r.rawHeaders, LowerCase e.1) (he : eligible req st r = true)
    (h : dispatch lib cfg req st r = .ok out) (h200 : out.status = 200) :
    out.lines "content-encoding" =
      if (plan lib cfg req st r).gzipped.isSome = true then [("gzip" : Text)] else [] := by
  rw [lines_eq hr he h h200 (by decide), get?_headers _ r (by decide), get?_description,
    (eligible_iff.mp he).2.2.2.2.2, if_neg (fun hc => absurd hc.2 (by decide)),
    if_neg (fun hc => absurd hc.2 (by decide))]
  by_cases hgz : (plan lib cfg req st r).gzipped.isSome = true
  · rw [if_pos ⟨hgz, rfl⟩, if_pos hgz]
    rfl
  · rw [if_neg fun hc => hgz hc.1, if_neg hgz]
    rfl

/-- The body as the client reads it. -/
def decoded (gunzip : Bytes → Option Bytes) (out : Response) : Option Bytes :=
  if out.lines "content-encoding" = ["gzip"] then gunzip out.content else some out.content

theorem decoded_eq {gunzip : Bytes → Option Bytes} (hgzip : ∀ b, gunzip (lib.compress b) = some b)
    (hr : ∀ e ∈ r.rawHeaders, LowerCase e.1) (he : eligible req st r = true)
    (h : dispatch lib cfg req st r = .ok out) (h200 : out.status = 200) :
    decoded gunzip out = some (plan lib cfg req st r).reducedBody := by
  rw [decoded, lines_coding hr he h h200, (dispatch_ok hr he h h200).1]
  cases hgz : (plan lib cfg req st r).gzipped with
  | none =>
    rw [Plan.sent, hgz]
    rfl
  | some b =>
    rw [Plan.sent, hgz, plan_gzipped hgz]
    exact hgzip _

end

end

/-! ## The setting of the tests

A page with a field that the route strips, read by a poor client.  Its body has no
number and is too short to be compressed. -/

def mockGunzip : Bytes → Option Bytes
  | 0x1f :: 0x8b :: b => some b
  | _ => none

noncomputable def mockLibraries : Libraries where
  py := mockNumbers
  scanTooDeep _ := false
  walkTooDeep _ _ _ := false
  compress b := 0x1f :: 0x8b :: b

def mockAnswer : UpstreamAnswer where
  status := 200
  headers := ⟨[("content-type", "application/json"), ("etag", "v1"), ("vary", "Origin")], by decide⟩
  setCookie := []
  body := utf8 "\x7b\"id\":null,\"body\":[true]\x7d"

def mockResponse : Response where
  status := 200
  rawHeaders := [("content-type", "application/json"), ("etag", "v1"), ("vary", "Origin"),
    ("x-cache-status", "MISS"), ("content-length", "25")]
  content := mockAnswer.body

def mockRequest : Request where
  method := "GET"
  headers := [("accept-encoding", "gzip")]
  path := "/proxy/mock/page"
  userId := none
  clientIp := "192.0.2.1"
  networkQuality := .poor

def mockState : State := ⟨true, ["body"], false⟩

/-- The skeleton of the page. -/
def mockSkeleton : Response where
  status := 200
  rawHeaders := [("content-type", "application/json"),
    ("vary", "Origin, Accept-Encoding, X-Client-RTT, ECT, Save-Data"), ("x-cache-status", "MISS"),
    ("cache-control", "private, no-store"), ("x-response-mode", "adaptive"),
    ("x-adaptive-mode", "skeleton"), ("x-response-completeness", "reduced"),
    ("content-length", "11")]
  content := utf8 "\x7b\"id\":null\x7d"

theorem mockAnswer_reported : Reported mockAnswer where
  names := by
    show ∀ k ∈ mockAnswer.headers.items.map Prod.fst, LowerCase k
    decide
  cookies := by decide

def mockUpstream : UpstreamResponse where
  status := 200
  headers := ⟨[("content-type", "application/json"), ("etag", "v1"), ("vary", "Origin"),
    ("content-length", "25")], by decide⟩
  content := mockAnswer.body
  setCookie := []

theorem mockResponse_proxied : Proxied mockConfig mockAnswer "MISS" mockResponse := by
  have hup : boundedResponse mockConfig mockAnswer = .ok mockUpstream := by decide +kernel
  have hr : fromUpstream mockUpstream "MISS" = .ok mockResponse := by decide +kernel
  exact .upstream List.mem_cons_self hup hr

theorem mockSkeleton_eq :
    dispatch mockLibraries mockSettings mockRequest mockState mockResponse = .ok mockSkeleton := by
  decide +kernel

/-! ## Markers -/

section

variable {gw : Config} {lib : Libraries} {cfg : Settings} {req : Request} {st : State}
  {a : UpstreamAnswer} {r out : Response} {cacheStatus : Text}

theorem marker_eq (hr : ∀ e ∈ r.rawHeaders, LowerCase e.1) (he : eligible req st r = true)
    (h : dispatch lib cfg req st r = .ok out) (h200 : out.status = 200) :
    out.lines "x-response-completeness" =
        [if (plan lib cfg req st r).reducedBody ≠ r.content then "reduced" else "full"] ∧
      out.lines "x-adaptive-mode" = [(plan lib cfg req st r).adaptiveMode r.content] := by
  constructor
  · rw [lines_eq hr he h h200 (by decide), Plan.headers, Dict.get?_set, if_pos rfl]
    split <;> rfl
  · rw [lines_eq hr he h h200 (by decide), Plan.headers, Dict.get?_set, if_neg (by decide),
      Dict.get?_set, if_pos rfl]
    rfl

/-- A response is marked full if and only if the client ends up with the bytes of the
upstream.  One that is marked reduced is the upstream's value without the optional
fields, or the skeleton of it, which only a poor client without a cached copy gets. -/
theorem completeness_marker_truthful {gunzip : Bytes → Option Bytes}
    (hgzip : ∀ b, gunzip (lib.compress b) = some b) (ha : Reported a)
    (hr : Proxied gw a cacheStatus r) (he : eligible req st r = true)
    (h : dispatch lib cfg req st r = .ok out) (h200 : out.status = 200) :
    (out.lines "x-response-completeness" = ["full"] ∨
      out.lines "x-response-completeness" = ["reduced"]) ∧
    (out.lines "x-response-completeness" = ["full"] ↔ decoded gunzip out = some a.body) ∧
    (out.lines "x-response-completeness" = ["reduced"] →
      ∃ data, lib.loads a.body = some data ∧
        (out.lines "x-adaptive-mode" = ["stripped"] ∧
            decoded gunzip out = some (lib.dumps (stripFields data st.optionalFields)) ∨
          out.lines "x-adaptive-mode" = ["skeleton"] ∧ modeOf cfg = .adaptive ∧
            req.networkQuality = .poor ∧ st.servedFromCache = false ∧
            decoded gunzip out = some (lib.dumps (makeSkeleton data st.optionalFields)))) := by
  obtain ⟨hbody, hnames, -⟩ := hr.fields ha
  obtain ⟨hmarker, hmode⟩ := marker_eq hnames he h h200
  rw [decoded_eq hgzip hnames he h h200, hmarker, hmode, ← hbody]
  by_cases hsame : (plan lib cfg req st r).reducedBody = r.content
  · rw [if_neg (not_not_intro hsame), hsame]
    refine ⟨Or.inl rfl, ⟨fun _ => rfl, fun _ => rfl⟩, fun hreduced => ?_⟩
    exact absurd hreduced (by decide)
  · rw [if_pos hsame]
    refine ⟨Or.inr rfl, ⟨fun hfull => absurd hfull (by decide), fun heq => ?_⟩, fun _ => ?_⟩
    · exact absurd (Option.some.inj heq) hsame
    · obtain ⟨data, hdata, ⟨hskeleton, hreduced⟩ | ⟨hskeleton, hreduced⟩⟩ := plan_reduced hsame
      · refine ⟨data, hdata, Or.inl ⟨?_, congrArg some hreduced⟩⟩
        simp [Plan.adaptiveMode, hskeleton, hsame]
      · obtain ⟨hadaptive, hpoor, hcached⟩ := usesSkeleton_iff.mp hskeleton
        refine ⟨data, hdata, Or.inr ⟨?_, hadaptive, hpoor, hcached, congrArg some hreduced⟩⟩
        simp [Plan.adaptiveMode, hskeleton, hsame]

end

theorem completeness_marker_mock :
    mockSkeleton.lines "x-adaptive-mode" = ["skeleton"] ∧
      ¬decoded mockGunzip mockSkeleton = some mockAnswer.body ∧
      ∃ data, mockLibraries.loads mockAnswer.body = some data ∧
        (mockSkeleton.lines "x-adaptive-mode" = ["stripped"] ∧
            decoded mockGunzip mockSkeleton =
              some (mockLibraries.dumps (stripFields data ["body"])) ∨
          mockSkeleton.lines "x-adaptive-mode" = ["skeleton"] ∧ modeOf mockSettings = .adaptive ∧
            mockRequest.networkQuality = .poor ∧ mockState.servedFromCache = false ∧
            decoded mockGunzip mockSkeleton =
              some (mockLibraries.dumps (makeSkeleton data ["body"]))) := by
  have hgzip : ∀ b, mockGunzip (mockLibraries.compress b) = some b := fun _ => rfl
  have hmarked := completeness_marker_truthful hgzip
    mockAnswer_reported mockResponse_proxied (by decide +kernel) mockSkeleton_eq rfl
  refine ⟨by decide +kernel, fun hsame => ?_, hmarked.2.2 (by decide +kernel)⟩
  exact absurd (hmarked.2.1.mpr hsame) (by decide +kernel)

/-! ## `Vary` -/

/-- A member of a list header as it is written there. -/
structure IsMember (m : Text) : Prop where
  stripped : strip m = m
  nonempty : m ≠ []
  noComma : ',' ∉ m

theorem isMember_of_mem {value m : Text} (h : m ∈ members value) : IsMember m := by
  obtain ⟨hmem, hne⟩ := List.mem_filter.mp h
  obtain ⟨part, hpart, rfl⟩ := List.mem_map.mp hmem
  refine ⟨strip_strip part, ?_, fun hcomma => ?_⟩
  · intro hnil
    rw [hnil] at hne
    cases hne
  · exact not_mem_splitOn value part hpart (strip_subset part hcomma)

theorem members_intercalate {vs : List Text} (h : ∀ v ∈ vs, IsMember v) :
    members ([',', ' '].intercalate vs) = vs := by
  have hkeep : ∀ ws : List Text, (∀ w ∈ ws, IsMember w) →
      (ws.map strip).filter (fun part => !part.isEmpty) = ws := by
    intro ws hws
    rw [List.map_congr_left (g := id) fun w hw => (hws w hw).stripped, List.map_id,
      List.filter_eq_self]
    intro w hw
    simpa using (hws w hw).nonempty
  cases vs with
  | nil => rfl
  | cons v vs =>
    have hsplit := splitOn_intercalate (b := ' ') (by decide) (h v List.mem_cons_self).noComma
      fun w hw => (h w (List.mem_cons_of_mem v hw)).noComma
    have hspaces : (vs.map (' ' :: ·)).map strip = vs.map strip := by
      rw [List.map_map]
      exact List.map_congr_left fun w _ => strip_cons_of_isSpace (by decide) w
    rw [members, hsplit, List.map_cons, hspaces, ← List.map_cons (f := strip)]
    exact hkeep (v :: vs) h

theorem mem_addName {vary : List Text} {name m : Text} (h : m ∈ addName vary name) :
    m ∈ vary ∨ m = name := by
  unfold addName at h
  split at h
  · exact Or.inl h
  · exact (List.mem_append.mp h).imp_right List.mem_singleton.mp

theorem addName_names (vary : List Text) (name : Text) :
    ∃ m ∈ addName vary name, lower m = lower name := by
  unfold addName
  split
  next h =>
    obtain ⟨m, hm, hlower⟩ := List.mem_map.mp (List.contains_iff_mem.mp h)
    exact ⟨m, hm, hlower⟩
  next => exact ⟨name, List.mem_append_right _ List.mem_cons_self, rfl⟩

theorem subset_addName (vary : List Text) (name : Text) : vary ⊆ addName vary name := by
  unfold addName
  split
  · exact List.Subset.refl _
  · exact List.subset_append_left _ _

theorem foldl_addName (names vary : List Text) :
    vary ⊆ names.foldl addName vary ∧
      (∀ name ∈ names, ∃ m ∈ names.foldl addName vary, lower m = lower name) ∧
      ∀ m ∈ names.foldl addName vary, m ∈ vary ∨ m ∈ names := by
  induction names generalizing vary with
  | nil => exact ⟨List.Subset.refl _, fun _ h => (by cases h), fun _ h => Or.inl h⟩
  | cons name names ih =>
    obtain ⟨hsub, hnamed, hfrom⟩ := ih (addName vary name)
    refine ⟨List.Subset.trans (subset_addName vary name) hsub, fun n hn => ?_, fun m hm => ?_⟩
    · rcases List.mem_cons.mp hn with rfl | hn
      · obtain ⟨m, hm, hlower⟩ := addName_names vary n
        exact ⟨m, hsub hm, hlower⟩
      · exact hnamed n hn
    · rcases hfrom m hm with hm | hm
      · rcases mem_addName hm with hm | rfl
        · exact Or.inl hm
        · exact Or.inr List.mem_cons_self
      · exact Or.inr (List.mem_cons_of_mem name hm)

theorem members_varyValue (r : Response) :
    members (varyValue r) = varyNames.foldl addName (members ((r.header "vary").getD [])) := by
  have hnames : ∀ name ∈ varyNames, IsMember name := by
    intro name hname
    have hall : ∀ name ∈ varyNames, strip name = name ∧ name ≠ [] ∧ ',' ∉ name := by decide
    exact ⟨(hall name hname).1, (hall name hname).2.1, (hall name hname).2.2⟩
  refine members_intercalate fun v hv => ?_
  rcases (foldl_addName varyNames _).2.2 v hv with hv | hv
  · exact isMember_of_mem hv
  · exact hnames v hv

/-! ## Validators -/

section

variable {gw : Config} {lib : Libraries} {cfg : Settings} {req : Request} {st : State}
  {a : UpstreamAnswer} {r out : Response} {cacheStatus : Text}

/-- Other bytes than the upstream's travel without a validator and are not to be
stored, and the upstream's own bytes keep what the upstream said about them.  Length,
`Vary` and cookies are right in both cases. -/
theorem validators_travel_with_bytes (ha : Reported a) (hr : Proxied gw a cacheStatus r)
    (he : eligible req st r = true) (h : dispatch lib cfg req st r = .ok out)
    (h200 : out.status = 200) :
    (out.content ≠ a.body →
      (∀ name ∈ REPRESENTATION_HEADERS, out.lines name = []) ∧
        out.lines "cache-control" = ["private, no-store"]) ∧
    (out.content = a.body →
      ∀ name ∈ ("cache-control" : Text) :: REPRESENTATION_HEADERS, out.lines name = r.lines name) ∧
    out.lines "content-length" = [(toString out.content.length).toList] ∧
    (∃ vary, out.lines "vary" = [vary] ∧
      (∀ value ∈ r.lines "vary", members value ⊆ members vary) ∧
      ∀ name ∈ varyNames, ∃ m ∈ members vary, lower m = lower name) ∧
    out.rawHeaders.filter isSetCookie = r.rawHeaders.filter isSetCookie := by
  obtain ⟨hbody, hnames, hlines⟩ := hr.fields ha
  obtain ⟨hsent, hraw⟩ := dispatch_ok hnames he h h200
  have hvalidators : ∀ name ∈ ("cache-control" : Text) :: REPRESENTATION_HEADERS,
      name ∉ gatewayFields ∧
        name ∉ [("x-response-completeness" : Text), "x-adaptive-mode", "x-response-mode"] ∧
        name ∉ [("content-length" : Text), "set-cookie"] ∧ "content-encoding" ≠ name ∧
        "content-length" ≠ name ∧ "vary" ≠ name := by decide
  have hget : ∀ name ∈ ("cache-control" : Text) :: REPRESENTATION_HEADERS,
      out.lines name = (((plan lib cfg req st r).description r).get? name).toList := by
    intro name hname
    obtain ⟨-, hmarker, hother, -⟩ := hvalidators name hname
    rw [lines_eq hnames he h h200 hother, get?_headers _ r hmarker]
  refine ⟨fun hne => ⟨fun name hname => ?_, ?_⟩, fun heq name hname => ?_,
    lines_length hnames he h h200, ⟨varyValue r, ?_, fun value hvalue => ?_, fun name hname => ?_⟩, ?_⟩
  · have hchanged : (plan lib cfg req st r).sent ≠ r.content := by rwa [← hsent, hbody]
    have hcontrol : ("cache-control" : Text) ≠ name := by
      rintro rfl
      exact absurd hname (by decide)
    rw [hget name (List.mem_cons_of_mem _ hname), get?_description,
      if_neg fun hc => hcontrol hc.2, if_pos ⟨hchanged, hname⟩]
    rfl
  · have hchanged : (plan lib cfg req st r).sent ≠ r.content := by rwa [← hsent, hbody]
    rw [hget _ List.mem_cons_self, get?_description, if_pos ⟨hchanged, rfl⟩]
    rfl
  · have hkept : (plan lib cfg req st r).sent = r.content := by rw [← hsent, hbody, heq]
    obtain ⟨hfield, -, -, hcoding, hlength, hvary⟩ := hvalidators name hname
    rw [hget name hname, get?_description, if_neg fun hc => hc.1 hkept, if_neg fun hc => hc.1 hkept,
      if_neg fun hc => hcoding hc.2, if_neg hlength, if_neg hvary, hlines name hfield]
  · rw [lines_eq hnames he h h200 (by decide), get?_headers _ r (by decide), get?_description]
    simp [REPRESENTATION_HEADERS]
  · rw [hlines _ (by decide), Option.mem_toList] at hvalue
    rw [members_varyValue, hvalue]
    exact (foldl_addName varyNames _).1
  · rw [members_varyValue]
    exact (foldl_addName varyNames _).2.1 name hname
  · rw [hraw, List.filter_append, List.filter_filter, List.filter_filter]
    simp

end

theorem validators_travel_mock :
    (∀ name ∈ REPRESENTATION_HEADERS, mockSkeleton.lines name = []) ∧
      mockSkeleton.lines "cache-control" = ["private, no-store"] ∧
      mockSkeleton.lines "content-length" = ["11"] ∧ mockResponse.lines "etag" = ["v1"] := by
  have htravel := validators_travel_with_bytes mockAnswer_reported mockResponse_proxied
    (by decide +kernel) mockSkeleton_eq rfl
  obtain ⟨hnone, hcontrol⟩ := htravel.1 (by decide +kernel)
  exact ⟨hnone, hcontrol, htravel.2.2.1.trans (by decide +kernel), by decide +kernel⟩

end Optimizer

end AdaptiveGateway
