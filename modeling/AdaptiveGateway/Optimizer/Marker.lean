/-
Who writes `X-Cache-Status`.

The proxy sets its marker under a mixed-case name in a map of lower-case names, so a
marker that the upstream sends stays beside it.  The optimizer then keeps the first
of the two, which is the upstream's.  `cache_marker_owned_iff` says when the client
gets the gateway's marker and no other.
-/
import AdaptiveGateway.Optimizer.Representation

namespace AdaptiveGateway

namespace Optimizer

open Codec Proxy
open Proxy (Request Response)

/-- The marker that the upstream sends and the proxy passes on. -/
def sentMarker (a : UpstreamAnswer) : Option Text :=
  if dropped ((a.headers.get? "connection").getD []) "x-cache-status" = true then none
  else a.headers.get? "x-cache-status"

section

variable {gw : Config} {lib : Libraries} {cfg : Settings} {req : Request} {st : State}
  {a : UpstreamAnswer} {up : UpstreamResponse} {r out : Response} {cacheStatus : Text}

theorem responseHeaders_marker (ha : Reported a) (hb : boundedResponse gw a = .ok up) :
    (responseHeaders up).get? "x-cache-status" = sentMarker a := by
  obtain ⟨-, -, -, -, hheaders⟩ := boundedResponse_ok hb
  have hcopied : copied a "x-cache-status" =
      !dropped ((a.headers.get? "connection").getD []) "x-cache-status" := by
    have hother : (REPRESENTATION_HEADERS ++ [("content-encoding" : Text)]).contains
        (lower "x-cache-status") = false := by decide
    rw [copied, hother, Bool.not_false, Bool.or_true, Bool.and_true]
  have hbounded : (boundedHeaders a).get? "x-cache-status" = sentMarker a := by
    rw [boundedHeaders_eq, Dict.get?_filter (q := copied a) fun _ => rfl, hcopied, sentMarker]
    cases dropped ((a.headers.get? "connection").getD []) "x-cache-status" <;> rfl
  rw [get?_responseHeaders (bounded_of_reported ha hb), if_neg (by decide), hheaders]
  split
  · exact hbounded
  · rw [Dict.get?_set, if_neg (by decide), hbounded]

/-- The proxy's marker stands behind the upstream's. -/
theorem marker_lines (ha : Reported a) (hr : Proxied gw a cacheStatus r) :
    r.lines "x-cache-status" = (sentMarker a).toList ++ [cacheStatus] := by
  have hlength : ∀ content status,
      Dict.values ("x-cache-status" : Text) (lengthField content status) = [] :=
    fun _ _ => values_of_names lengthField_names (by decide)
  cases hr with
  | @upstream up _ _ _ hb hr =>
    have hcookies : Dict.values ("x-cache-status" : Text)
        (up.setCookie.map fun c => (("set-cookie" : Text), c)) = [] := by
      refine values_of_names (k := "set-cookie") (fun e he => ?_) (by decide)
      obtain ⟨c, -, rfl⟩ := List.mem_map.mp he
      rfl
    rw [fromUpstream_ok (bounded_of_reported ha hb) hr, Response.lines, upstreamFields,
      Dict.values_append, Dict.values_append, Dict.values_items, Dict.get?_erase,
      if_neg (by decide), responseHeaders_marker ha hb, hcookies, List.append_nil,
      ← List.singleton_append, Dict.values_append, hlength]
    rfl
  | @cached up _ _ _ status _ _ hb _ hr =>
    obtain ⟨age, rfl⟩ := fromCache_ok (bounded_of_reported ha hb) hr
    rw [Response.lines, cachedFields, Dict.values_append, Dict.values_items,
      responseHeaders_marker ha hb, ← List.singleton_append, Dict.values_append,
      ← List.singleton_append (l := lengthField _ _), Dict.values_append, hlength]
    rfl

/-- The client accepts no coding that the optimizer would supply, and is answered 406. -/
def Refused (lib : Libraries) (cfg : Settings) (req : Request) (st : State) (r : Response) : Prop :=
  eligible req st r = true ∧
    acceptsIdentity lib.py ((req.header "accept-encoding").getD []) = false ∧
    gzip lib (modeOf cfg) req r (reduce lib (modeOf cfg) req.networkQuality st r.content) = none

theorem dispatch_refused (hrefused : Refused lib cfg req st r)
    (h : dispatch lib cfg req st r = .ok out) :
    out.lines "x-cache-status" = [] ∧ out.status = 406 := by
  obtain ⟨he, hidentity, hgzip⟩ := hrefused
  have hnone : (plan lib cfg req st r).gzipped.isNone = true := by
    rw [plan, hgzip]
    rfl
  simp only [dispatch, he, if_true, hidentity, hnone, Bool.not_false, Bool.and_self] at h
  rw [notAcceptable, Response.make_eq] at h
  split at h
  · cases h
    exact ⟨by rfl, rfl⟩
  · cases h

/-- A response that is not refused keeps its status. -/
theorem status_of_not_refused (hrefused : ¬Refused lib cfg req st r) (he : eligible req st r = true)
    (h : dispatch lib cfg req st r = .ok out) : out.status = 200 := by
  have haccepted : ((plan lib cfg req st r).gzipped.isNone &&
      !acceptsIdentity lib.py ((req.header "accept-encoding").getD [])) = false := by
    rw [Bool.eq_false_iff, ne_eq, Bool.and_eq_true, Option.isNone_iff_eq_none, Bool.not_eq_true']
    exact fun hboth => hrefused ⟨he, hboth.2, hboth.1⟩
  simp only [dispatch, he, if_true, haccepted, Bool.false_eq_true, if_false] at h
  rw [Response.make_eq] at h
  split at h
  next heq => cases h
  next heq =>
    split at heq
    · cases heq
      cases h
      exact (eligible_iff.mp he).2.2.1
    · cases heq

/-- The client gets exactly one marker, and the gateway's, if and only if the optimizer
does not refuse the response and the upstream has sent no marker of its own; or it has
sent the very value that the gateway computes, and the optimizer has rebuilt the
response. -/
theorem cache_marker_owned_iff (ha : Reported a) (hr : Proxied gw a cacheStatus r)
    (h : dispatch lib cfg req st r = .ok out) :
    out.lines "x-cache-status" = [cacheStatus] ↔
      ¬Refused lib cfg req st r ∧ (sentMarker a = none ∨
        sentMarker a = some cacheStatus ∧ eligible req st r = true) := by
  have hlines := marker_lines ha hr
  by_cases he : eligible req st r = true
  · by_cases hrefused : Refused lib cfg req st r
    · rw [(dispatch_refused hrefused h).1]
      exact ⟨fun hc => absurd hc.symm (List.cons_ne_nil _ _), fun hc => absurd hrefused hc.1⟩
    · have h200 := status_of_not_refused hrefused he h
      have hout : out.lines "x-cache-status" = [(sentMarker a).getD cacheStatus] := by
        have hhead : r.header "x-cache-status" = some ((sentMarker a).getD cacheStatus) := by
          rw [Response.header, Dict.lookup_eq_head?, ← Response.lines, hlines]
          cases sentMarker a <;> rfl
        rw [lines_eq (hr.fields ha).2.1 he h h200 (by decide), get?_headers _ r (by decide),
          get?_description, hhead]
        simp [REPRESENTATION_HEADERS]
      rw [hout]
      cases sentMarker a with
      | none => simp [hrefused]
      | some v => simp [hrefused, he]
  · have hsame : out = r := by
      simp only [dispatch, he, Bool.false_eq_true, if_false, Except.ok.injEq] at h
      exact h.symm
    have hrefused : ¬Refused lib cfg req st r := fun hc => he hc.1
    rw [hsame, hlines]
    cases sentMarker a with
    | none => simp [hrefused]
    | some v => simp [he]

end

theorem cache_marker_owned_mock : mockSkeleton.lines "x-cache-status" = ["MISS"] := by
  have hidentity : acceptsIdentity mockLibraries.py ((mockRequest.header "accept-encoding").getD []) =
      true := by decide +kernel
  refine (cache_marker_owned_iff mockAnswer_reported mockResponse_proxied mockSkeleton_eq).mpr
    ⟨fun hrefused => ?_, Or.inl (by decide)⟩
  rw [Refused, hidentity] at hrefused
  cases hrefused.2.1

/-- A page of an upstream that marks its own cache hits. -/
def mockMarked : UpstreamAnswer where
  status := 200
  headers := ⟨[("content-type", "application/json"), ("x-cache-status", "HIT")], by decide⟩
  setCookie := []
  body := utf8 "\x7b\x7d"

/-- Fetched by the gateway on a miss. -/
def mockMarkedResponse : Response where
  status := 200
  rawHeaders := [("content-type", "application/json"), ("x-cache-status", "HIT"),
    ("x-cache-status", "MISS"), ("content-length", "2")]
  content := utf8 "\x7b\x7d"

/-- The upstream's marker reaches the client, beside the gateway's own or in its place
after the optimizer. -/
theorem upstream_marker_passed_on :
    Reported mockMarked ∧ Proxied mockConfig mockMarked "MISS" mockMarkedResponse ∧
      mockMarkedResponse.lines "x-cache-status" = ["HIT", "MISS"] ∧
      ∃ out, dispatch mockLibraries mockSettings mockRequest mockState mockMarkedResponse = .ok out ∧
        out.status = 200 ∧ out.lines "x-cache-status" = ["HIT"] := by
  have hnames : ∀ k ∈ mockMarked.headers.items.map Prod.fst, LowerCase k := by decide
  have hup : boundedResponse mockConfig mockMarked = .ok ⟨200, ⟨[("content-type", "application/json"),
      ("x-cache-status", "HIT"), ("content-length", "2")], by decide⟩, utf8 "\x7b\x7d", []⟩ := by
    decide +kernel
  have hout : (match dispatch mockLibraries mockSettings mockRequest mockState mockMarkedResponse with
      | .ok out => decide (out.status = 200 ∧ out.lines "x-cache-status" = ["HIT"])
      | .error _ => false) = true := by decide +kernel
  refine ⟨⟨hnames, by decide⟩, .upstream List.mem_cons_self hup (by decide +kernel), by decide +kernel,
    ?_⟩
  split at hout
  next out heq => exact ⟨out, heq, of_decide_eq_true hout⟩
  next => cases hout

end Optimizer

end AdaptiveGateway
