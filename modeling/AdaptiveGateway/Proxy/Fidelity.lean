/-
A cached answer and the fresh one.

`_from_upstream` and `_from_cache` build their responses independently, and between
them lie the envelope, its Base64 body and its JSON form.  Their fields are compared
here: apart from the marks of the cache itself they are the same, in the same order,
or neither response can be written.
-/
import AdaptiveGateway.Codec.Decimal
import AdaptiveGateway.Proxy.Fields
import AdaptiveGateway.Proxy.Isolation

namespace AdaptiveGateway
namespace Proxy

open Codec Cache Concurrent

variable {cfg : Config} {a : UpstreamAnswer} {up : UpstreamResponse}

/-! ## Cookies -/

/-- The upstream's cookies are the ones in its header map, and a response that may be
cached has none there. -/
theorem no_cookies (ha : Reported a)
    (hnom : ¬Nominates ((a.headers.get? "connection").getD []) "set-cookie")
    (hb : boundedResponse cfg a = .ok up) (hfit : responseCacheable up = true) :
    up.headers.get? "set-cookie" = none ∧ up.setCookie = [] := by
  have hnone : up.headers.get? "set-cookie" = none := by
    simp only [responseCacheable, Bool.and_eq_true, Bool.not_eq_eq_eq_not, Bool.not_true,
      List.any_eq_false] at hfit
    simpa using hfit.2 "set-cookie" (by decide)
  refine ⟨hnone, ?_⟩
  have hcopied : copied a "set-cookie" = true := by
    have hdropped : dropped ((a.headers.get? "connection").getD []) "set-cookie" = false := by
      rw [Bool.eq_false_iff, ne_eq, dropped_iff]
      rintro (h | h)
      · exact absurd h (by decide)
      · exact hnom h
    rw [copied, hdropped]
    simp only [Bool.not_false, Bool.true_and, Bool.or_eq_true]
    exact Or.inr (by decide)
  obtain ⟨-, -, hcookies, -, hheaders⟩ := boundedResponse_ok hb
  rw [boundedHeaders_eq] at hheaders
  have hget : up.headers.get? "set-cookie" = a.headers.get? "set-cookie" := by
    have hfilter : (a.headers.filter fun e => copied a e.1).get? "set-cookie" =
        a.headers.get? "set-cookie" := by
      rw [Dict.get?_filter (q := copied a) fun _ => rfl, if_pos hcopied]
    rw [hheaders]
    split
    · exact hfilter
    · rw [Dict.get?_set, if_neg (by decide), hfilter]
  rw [hcookies]
  by_contra hne
  have hsome := ha.cookies.mp hne
  rw [← hget, hnone] at hsome
  cases hsome

/-! ## The two responses -/

theorem erase_of_none {d : Dict Text Text} {name : Text} (h : d.get? name = none) :
    d.erase name = d := by
  refine Dict.ext_items (List.filter_eq_self.mpr fun e he => ?_)
  rw [decide_eq_true_eq]
  rintro rfl
  have hget := Dict.mem_items_iff.mp he
  rw [h] at hget
  cases hget

theorem isLatin1_of_isAscii {t : Text} (h : Url.isAscii t = true) : isLatin1 t = true := by
  simp only [Url.isAscii, isLatin1, List.all_eq_true, decide_eq_true_eq] at h ⊢
  intro c hc
  have hlt := h c hc
  omega

theorem isAscii_digits (n : Nat) : Url.isAscii (toString n).toList = true := by
  rw [Nat.toString_eq_repr, Nat.toList_repr, Url.isAscii, List.all_eq_true]
  intro c hc
  have hdigit := Json.isDigit_toDigits n c hc
  rw [Json.isDigit, decide_eq_true_eq] at hdigit
  rw [decide_eq_true_eq]
  omega

theorem isAscii_ageText (e : CachedResponse) (now : Time) : Url.isAscii (e.ageText now) = true := by
  simp only [CachedResponse.ageText, Url.isAscii, List.all_append]
  rw [Bool.and_eq_true]
  constructor
  · split <;> decide
  · exact isAscii_digits _

/-- A field in ASCII has a Latin-1 encoding. -/
theorem latin1Field_of_isAscii {name value : Text} (hname : Url.isAscii name = true)
    (hvalue : Url.isAscii value = true) : latin1Field (name, value) = true := by
  rw [latin1Field, Bool.and_eq_true]
  exact ⟨isLatin1_of_isAscii hname, isLatin1_of_isAscii hvalue⟩

/-- The answer out of the cache is the fresh one, with the two fields of the cache in
the place of the one that a miss is marked with. -/
def SameAnswer (fresh cached : Except Exc Response) (status : CacheStatus) : Prop :=
  match fresh, cached with
  | .ok r, .ok c =>
    c.status = r.status ∧ c.content = r.content ∧ ∃ front back age,
      r.rawHeaders = front ++ (("x-cache-status" : Text), ("MISS" : Text)) :: back ∧
      c.rawHeaders = front ++ (("x-cache-status" : Text), status.value) ::
        (("x-cache-age" : Text), age) :: back
  | .error e, .error e' => e = e'
  | _, _ => False

theorem fromCache_sameAnswer (hup : Bounded up) (hnone : up.headers.get? "set-cookie" = none)
    (hcookies : up.setCookie = []) (freshFor : Nat) (stored now : Time) (status : CacheStatus) :
    SameAnswer (fromUpstream up "MISS") (fromCache (.build up freshFor stored) status now)
      status := by
  have herase : (responseHeaders up).erase "set-cookie" = responseHeaders up := by
    refine erase_of_none ?_
    rw [get?_responseHeaders hup, hnone, ite_self]
  have hfresh : upstreamFields up "MISS" = (responseHeaders up).items ++
      (("x-cache-status" : Text), ("MISS" : Text)) :: lengthField up.content up.status := by
    rw [upstreamFields, herase, hcookies, List.map_nil, List.append_nil]
  have hstatus : latin1Field (("x-cache-status" : Text), status.value) = true := by
    cases status <;> decide
  have hage : latin1Field (("x-cache-age" : Text),
      (CachedResponse.build up freshFor stored).ageText now) = true :=
    latin1Field_of_isAscii (by decide) (isAscii_ageText _ now)
  have hmiss : latin1Field (("x-cache-status" : Text), ("MISS" : Text)) = true := by decide
  rw [fromUpstream_eq hup, fromCache_eq hup, hfresh]
  simp only [cachedFields, List.all_append, List.all_cons, hstatus, hage, hmiss, Bool.true_and]
  split
  · exact ⟨rfl, rfl, _, _, _, rfl, rfl⟩
  · rfl

/-! ## Through the store -/

/-- The store does what it is told. -/
abbrev unhindered (lib : Libraries) (i : Thread) (c : Cmd ⊕ Call) (s : World) :=
  exec lib i c .ok s

variable {lib : Libraries}

/-- What `cache_set` stores for an upstream's response is what `cache_get` finds, as long
as the key keeps its value, and the answer made of it is the one that the upstream's
response itself would have been turned into. -/
theorem cached_answer_equals_upstream
    (hjson : ∀ e, lib.modelValidateJson (lib.modelDumpJson e) = some e) (ha : Reported a)
    (hnom : ¬Nominates ((a.headers.get? "connection").getD []) "set-cookie")
    (hb : boundedResponse cfg a = .ok up) (hfit : responseCacheable up = true) (key : Text)
    (freshFor : Nat) (stored : Time) (i j : Thread) (s : World) :
    ∃ s', (cacheSet lib key (.build up freshFor stored)).eval (unhindered lib i) s =
        some (.ok (), s') ∧
      ∀ t, t.cache key = s'.cache key → ∃ status entry,
        (cacheGet lib key).eval (unhindered lib j) t = some (.ok (status, some entry), t) ∧
          ∀ now, SameAnswer (fromUpstream up "MISS") (fromCache entry status now) status := by
  obtain ⟨hnone, hcookies⟩ := no_cookies ha hnom hb hfit
  have hup := bounded_of_reported ha hb
  refine ⟨_, rfl, fun t ht => ?_⟩
  have hstored : (t.cache key).map Stored.value =
      some (lib.modelDumpJson (.build up freshFor stored)) := by
    rw [ht]
    show (Function.update s.cache key _ key).map Stored.value = _
    rw [Function.update_self]
    rfl
  have hbody : (CachedResponse.build up freshFor stored).body = .ok up.content := by
    rw [CachedResponse.body, CachedResponse.build, Base64.b64decode_b64encode]
  have hread : (cacheGet lib key).eval (unhindered lib j) t = some (.ok
      (if (CachedResponse.build up freshFor stored).isStale t.now then .stale else .hit,
        some (.build up freshFor stored)), t) := by
    have hget : (catchRedis (await (.get key)) none).eval (unhindered lib j) t =
        some (.ok ((t.cache key).map Stored.value), t) := rfl
    show Prog.eval (unhindered lib j) (Prog.bind (catchRedis (await (.get key)) none) _) t = _
    rw [Prog.eval_bind, hget, hstored]
    simp only [Option.bind_some, hjson, hbody]
    rfl
  refine ⟨_, _, hread, fun now => ?_⟩
  exact fromCache_sameAnswer hup hnone hcookies freshFor stored now _

theorem cached_answer_equals_upstream_mock :
    ∃ up, boundedResponse mockConfig mockPage = .ok up ∧ up.content = mockPage.body ∧
      ∃ s', (cacheSet mockLibraries "k" (.build up 60 0)).eval
          (unhindered mockLibraries (.handler 0)) {} = some (.ok (), s') ∧
        ∀ t, t.cache "k" = s'.cache "k" → ∃ status entry,
          (cacheGet mockLibraries "k").eval (unhindered mockLibraries (.handler 1)) t =
            some (.ok (status, some entry), t) ∧
          ∀ now, SameAnswer (fromUpstream up "MISS") (fromCache entry status now) status := by
  have hreported : Reported mockPage := by
    refine ⟨?_, by decide⟩
    show ∀ k ∈ mockPage.headers.items.map Prod.fst, LowerCase k
    decide
  have hfit : (match boundedResponse mockConfig mockPage with
      | .ok up => responseCacheable up
      | .error _ => false) = true := by decide +kernel
  split at hfit
  next up hup =>
    have hnom : ¬Nominates ((mockPage.headers.get? "connection").getD []) "set-cookie" := by
      show ¬("set-cookie".toList ∈ _)
      decide
    exact ⟨up, hup, (boundedResponse_ok hup).2.1, cached_answer_equals_upstream mockLibraries_json
      hreported hnom hup hfit "k" 60 0 (.handler 0) (.handler 1) {}⟩
  next => cases hfit

end Proxy
end AdaptiveGateway
