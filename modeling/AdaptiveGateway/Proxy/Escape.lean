/-
Exceptions that leave the proxy.

The handlers catch `httpx.HTTPError` and `BodyTooLarge`.  What is left are the errors of
the three encodings: httpx writes headers as ASCII and refuses other ones, on the way
to the upstream and again when it builds the bounded copy, and Starlette writes cookies
as Latin-1.  The cookies that the client has kept are headers as well.  `sure_handleGet`
and `sure_handleWrite` reduce both handlers to the one upstream call, and
`proxy_returns_iff` says in terms of the request, of the upstream's answer and of the jar
when none of these errors occurs.
-/
import AdaptiveGateway.Proxy.Fidelity
import AdaptiveGateway.Proxy.ListHeaders
import AdaptiveGateway.Proxy.Route

namespace AdaptiveGateway
namespace Proxy

open Codec Concurrent Cache

/-! ## ASCII header maps -/

theorem isAsciiMap_iff {d : Dict Text Text} :
    isAsciiMap d = true ↔
      ∀ name value, d.get? name = some value → Url.isAscii name = true ∧ Url.isAscii value = true := by
  simp only [isAsciiMap, List.all_eq_true, Bool.and_eq_true, Prod.forall, Dict.mem_items_iff]

theorem isAsciiMap_set {d : Dict Text Text} (hd : isAsciiMap d = true) {name value : Text}
    (hname : Url.isAscii name = true) (hvalue : Url.isAscii value = true) :
    isAsciiMap (d.set name value) = true := by
  rw [isAsciiMap_iff] at hd ⊢
  intro name' value' hget
  rw [Dict.get?_set] at hget
  split at hget
  next heq =>
    subst heq
    cases hget
    exact ⟨hname, hvalue⟩
  next => exact hd name' value' hget

theorem isAsciiMap_erase {d : Dict Text Text} (hd : isAsciiMap d = true) (name : Text) :
    isAsciiMap (d.erase name) = true := by
  rw [isAsciiMap_iff] at hd ⊢
  intro name' value' hget
  rw [Dict.get?_erase] at hget
  split at hget
  · cases hget
  · exact hd name' value' hget

theorem isAsciiMap_responseHeaders {up : UpstreamResponse} (hup : isAsciiMap up.headers = true) :
    isAsciiMap (responseHeaders up) = true := by
  rw [isAsciiMap_iff] at hup ⊢
  intro name value hget
  rw [responseHeaders, get?_cleanHeaders] at hget
  split at hget
  · cases hget
  · exact hup name value hget

theorem isAscii_lower {t : Text} (h : Url.isAscii t = true) : Url.isAscii (lower t) = true := by
  simp only [Url.isAscii, lower, List.all_map, List.all_eq_true, Function.comp_apply,
    decide_eq_true_eq] at h ⊢
  intro c hc
  have hlt := h c hc
  unfold lowerChar
  split
  next hupper =>
    rw [Char.ofNat, dif_pos (Or.inl (by omega))]
    show c.toNat + 32 < 128
    omega
  next => rw [if_neg (by omega)]; exact hlt

/-- The declared type stays ASCII. -/
theorem isAscii_contentType {t : Text} (h : Url.isAscii t = true) :
    Url.isAscii (contentType t) = true := by
  unfold contentType
  split
  · rw [Url.isAscii, List.all_append]
    rw [Url.isAscii] at h
    rw [h]
    decide
  · exact h

/-! ## Responses that can be written -/

theorem Response.make_of_ascii (content : Bytes) (status : Nat) {headers : Dict Text Text}
    (mediaType : Option Text) (hheaders : isAsciiMap headers = true)
    (htype : ∀ t, mediaType = some t → Url.isAscii t = true) :
    ∃ r, Response.make content status headers mediaType = .ok r := by
  have hfolded : ∀ e ∈ folded headers, latin1Field e = true := by
    intro e he
    obtain ⟨e', he', rfl⟩ := List.mem_map.mp he
    obtain ⟨hname, hvalue⟩ := isAsciiMap_iff.mp hheaders e'.1 e'.2 (Dict.mem_items_iff.mp he')
    exact latin1Field_of_isAscii (isAscii_lower hname) hvalue
  have hpopulated : ∀ names, ∀ e ∈ populated content status names mediaType,
      latin1Field e = true := by
    intro names e he
    rcases List.mem_append.mp he with he | he
    · split at he
      · cases he
      · rw [List.mem_singleton.mp he]
        exact latin1Field_of_isAscii (by decide) (isAscii_digits _)
    · cases hm : mediaType with
      | none =>
        rw [hm] at he
        cases he
      | some t =>
        rw [hm] at he
        simp only at he
        split at he
        · cases he
        · rw [List.mem_singleton.mp he]
          exact latin1Field_of_isAscii (by decide) (isAscii_contentType (htype t hm))
  refine ⟨_, (Response.make_eq content status headers mediaType).trans (if_pos ?_)⟩
  rw [fields, List.all_append, Bool.and_eq_true, List.all_eq_true, List.all_eq_true]
  exact ⟨hfolded, hpopulated _⟩

/-- The proxy can always write its own answers. -/
theorem detail_ok (text : Text) (status : Nat) (headers : Dict Text Text)
    (h : isAsciiMap headers = true) : ∃ r, detail text status headers = .ok r := by
  refine Response.make_of_ascii _ status _ h fun t ht => ?_
  cases ht
  decide

/-- With ASCII headers only a cookie can stand in the way. -/
theorem fromUpstream_ok_iff {up : UpstreamResponse} {cacheStatus : Text}
    (hup : isAsciiMap up.headers = true) (hstatus : Url.isAscii cacheStatus = true) :
    (∃ r, fromUpstream up cacheStatus = .ok r) ↔ ∀ c ∈ up.setCookie, isLatin1 c = true := by
  have hheaders : isAsciiMap (((responseHeaders up).erase "set-cookie").set "X-Cache-Status"
      cacheStatus) = true :=
    isAsciiMap_set (isAsciiMap_erase (isAsciiMap_responseHeaders hup) _) (by decide) hstatus
  obtain ⟨r, hr⟩ := Response.make_of_ascii up.content up.status none hheaders
    fun t ht => by cases ht
  rw [fromUpstream, hr, ← List.all_eq_true]
  simp only
  cases up.setCookie.all isLatin1 <;> simp

/-- What is stored of an answer can always be written. -/
theorem fromCache_build_ok {up : UpstreamResponse} (hup : isAsciiMap up.headers = true)
    (freshFor : Nat) (stored now : Time) (status : CacheStatus) :
    ∃ r, fromCache (.build up freshFor stored) status now = .ok r := by
  have hage := isAscii_ageText (.build up freshFor stored) now
  have hstatus : Url.isAscii status.value = true := by
    cases status <;> decide
  simp only [fromCache, CachedResponse.body, CachedResponse.build, Base64.b64decode_b64encode]
  refine Response.make_of_ascii _ _ _ ?_ fun t ht => (isAsciiMap_iff.mp hup _ t ht).2
  exact isAsciiMap_set (isAsciiMap_set (isAsciiMap_responseHeaders hup) (by decide) hstatus)
    (by decide) hage

/-! ## The upstream call -/

/-- What `_call_upstream` makes of the client's result. -/
def received (cfg : Config) : Except Exc UpstreamAnswer → Except Exc UpstreamResponse
  | .ok a => boundedResponse cfg a
  | .error e => .error (deadline e)

/-- The handlers have a response for this result. -/
def Handled : Except Exc UpstreamResponse → Prop
  | .ok up => ∀ c ∈ up.setCookie, isLatin1 c = true
  | .error e => isUpstreamError e = true

/-- The function returns. -/
def IsOk {α : Type} (r : Except Exc α) : Prop := ∃ a, r = .ok a

theorem isOk_ok {α : Type} (a : α) : IsOk (.ok a : Except Exc α) := ⟨a, rfl⟩

theorem not_isOk_error {α : Type} (e : Exc) : ¬IsOk (.error e : Except Exc α) := by
  rintro ⟨a, ha⟩
  cases ha

theorem sure_callUpstream {C : Type} {A : C → Type} {cfg : Config} {req : Call}
    {L : (c : C ⊕ Call) → Except Exc (Sum.elim A Call.Ans c) → Prop}
    {Q : Except Exc UpstreamResponse → Prop} :
    Prog.Sure L (callUpstream cfg req) Q ↔ ∀ r, L (.inr req) r → Q (received cfg r) := by
  refine Prog.sure_except.trans (Prog.sure_bind.trans (Prog.sure_issue.trans ?_))
  refine forall_congr' fun r => imp_congr_right fun _ => ?_
  cases r with
  | error e =>
    show Prog.Sure L ((if e = .timeoutError then _ else none).getD _) Q ↔ Q (.error (deadline e))
    by_cases he : e = .timeoutError
    · rw [if_pos he, deadline, if_pos he]
      exact Iff.rfl
    · rw [if_neg he, deadline, if_neg he]
      exact Iff.rfl
  | ok a =>
    show Prog.Sure L (Prog.ofExcept (boundedResponse cfg a)) _ ↔ Q (boundedResponse cfg a)
    rw [Prog.sure_ofExcept]
    cases hr : boundedResponse cfg a with
    | ok up => exact Iff.rfl
    | error e =>
      -- The deadline's handler does not see its own kind of error here.
      have he : e ≠ .timeoutError := by
        rcases boundedResponse_error hr with rfl | rfl <;> exact fun h => by cases h
      show Prog.Sure L ((if e = .timeoutError then _ else none).getD _) Q ↔ Q (.error e)
      rw [if_neg he]
      exact Iff.rfl

/-- A bounded copy has ASCII headers. -/
theorem isAsciiMap_boundedResponse {cfg : Config} {a : UpstreamAnswer} {up : UpstreamResponse}
    (h : boundedResponse cfg a = .ok up) : isAsciiMap up.headers = true := by
  obtain ⟨-, -, -, hascii, hheaders⟩ := boundedResponse_ok h
  rw [hheaders]
  split
  · exact hascii
  · exact isAsciiMap_set hascii (by decide) (isAscii_digits _)

theorem received_ok {cfg : Config} {r : Except Exc UpstreamAnswer} {up : UpstreamResponse}
    (h : received cfg r = .ok up) : isAsciiMap up.headers = true := by
  cases r with
  | ok a => exact isAsciiMap_boundedResponse h
  | error e => cases h

/-! ## Reads -/

/-- Some run of the gateway has this text in the cache. -/
def Held (cfg : Config) (lib : Libraries) (raw : Text) : Prop :=
  ∃ gets q key v, (machine cfg lib gets).Reach Guard.any ((machine cfg lib gets).start {}) q ∧
    q.state.cache key = some v ∧ v.value = raw

/-- What the commands of a read may be answered.  A store may fail, and the cache holds
nothing that the gateway has not put there. -/
def readAnswers (cfg : Config) (lib : Libraries) (send : Call → Except Exc UpstreamAnswer) :
    (c : Cmd ⊕ Call) → Except Exc (Sum.elim Ans Call.Ans c) → Prop
  | .inl c, .error e => c.raises e = true ∧ e ≠ .cancelled
  | .inl (.get _), .ok v => ∀ raw, v = some raw → Held cfg lib raw
  | .inl _, .ok _ => True
  | .inr req, r => r = send req

section Reads

variable {cfg : Config} {lib : Libraries} {send : Call → Except Exc UpstreamAnswer}

/-- A stored response goes back to an answer of an upstream. -/
theorem Held.build {raw : Text} {e : CachedResponse}
    (hjson : ∀ e, lib.modelValidateJson (lib.modelDumpJson e) = some e) (h : Held cfg lib raw)
    (he : lib.modelValidateJson raw = some e) :
    ∃ up freshFor stored, isAsciiMap up.headers = true ∧ e = .build up freshFor stored := by
  obtain ⟨gets, q, key, v, hq, hv, rfl⟩ := h
  obtain ⟨hshelf, -⟩ := (sharing cfg lib gets).sound shelf_start (fun _ _ _ _ => Cache.boot_wp hjson)
    (fun _ _ _ _ h => by cases h) hq
  obtain ⟨e', hdump, x, -, up, freshFor, stored, -, -, -, hup, -, rfl⟩ := hshelf.stored key v hv
  rw [hdump, hjson] at he
  cases he
  exact ⟨up, freshFor, stored, isAsciiMap_boundedResponse hup, rfl⟩

/-- The clock and the random numbers do not fail. -/
theorem sure_await {c : Cmd} {Q : Except Exc (Ans c) → Prop}
    (herror : ∀ e, c.raises e = true → e ≠ .cancelled → Q (.error e))
    (hok : ∀ v, readAnswers cfg lib send (.inl c) (.ok v) → Q (.ok v)) :
    Prog.Sure (readAnswers cfg lib send) (await c) Q := by
  refine Prog.sure_issue.mpr fun r hr => ?_
  cases r with
  | error e => exact herror e hr.1 hr.2
  | ok v => exact hok v hr

/-- A failure of the store is caught. -/
theorem sure_catchRedis {c : Cmd} {a : Ans c} {Q : Except Exc (Ans c) → Prop} (ha : Q (.ok a))
    (hok : ∀ v, readAnswers cfg lib send (.inl c) (.ok v) → Q (.ok v)) :
    Prog.Sure (readAnswers cfg lib send) (catchRedis (await c) a) Q := by
  refine Prog.sure_except.mpr (sure_await (fun e he hne => ?_) hok)
  have hredis : e = .redisError := by
    cases c <;> simp_all [Cmd.raises]
  show Prog.Sure _ ((if e = .redisError then _ else none).getD _) Q
  rw [if_pos hredis]
  exact ha

theorem sure_storeIf {fit : Bool} {key : Text} {freshFor : Nat} {up : UpstreamResponse} :
    Prog.Sure (readAnswers cfg lib send) (storeIf fit lib key freshFor up)
      fun r => r = .ok () := by
  unfold storeIf
  split
  · refine Prog.sure_bind.mpr (sure_await (fun e he => by cases he) fun now _ => ?_)
    exact sure_catchRedis rfl fun _ _ => rfl
  · rfl

theorem sure_revalidate {g : GetCall} :
    Prog.Sure (readAnswers cfg lib send) (revalidate cfg lib g) fun r => r = .ok () := by
  have hlock : ∀ name ttl, Prog.Sure (readAnswers cfg lib send) (acquireLock name ttl)
      IsOk := by
    intro name ttl
    refine Prog.sure_bind.mpr (sure_await (fun e he => by cases he) fun token _ => ?_)
    refine Prog.sure_except.mpr (Prog.sure_bind.mpr (sure_await (fun e he hne => ?_) fun v _ => ?_))
    · have hredis : e = .redisError := by simp_all [Cmd.raises]
      show Prog.Sure _ ((if e = .redisError then _ else none).getD _) IsOk
      rw [if_pos hredis]
      exact isOk_ok _
    · exact isOk_ok _
  refine Prog.sure_bind.mpr ((hlock _ _).mono fun r hr => ?_)
  obtain ⟨token, rfl⟩ := hr
  cases token with
  | none => rfl
  | some token => exact sure_await (fun e he => by cases he) fun _ _ => rfl

theorem readAnswers_total (c : Cmd ⊕ Call) : ∃ r, readAnswers cfg lib send c r := by
  match c with
  | .inr req => exact ⟨_, rfl⟩
  | .inl (.get key) => exact ⟨.ok (none : Option Text), fun raw h => by cases h⟩
  | .inl .time => exact ⟨.ok (0 : Time), trivial⟩
  | .inl .tokenHex => exact ⟨.ok (⟨0⟩ : Token), trivial⟩
  | .inl (.set _ _ _) => exact ⟨.ok (), trivial⟩
  | .inl (.setNx _ _ _) => exact ⟨.ok true, trivial⟩
  | .inl (.getDel _ _) => exact ⟨.ok (), trivial⟩
  | .inl (.spawn _) => exact ⟨.ok (), trivial⟩
  | .inl .job => exact ⟨.ok (⟨[], [], Dict.empty, 0, ⟨0⟩⟩ : RefreshJob), trivial⟩

theorem sure_fetch {g : GetCall} :
    Prog.Sure (readAnswers cfg lib send) (fetch cfg lib g) IsOk ↔
      Handled (received cfg (send g.call)) := by
  refine Prog.sure_bind.trans (Prog.sure_except.trans (Prog.sure_bind.trans
    (sure_callUpstream.trans (forall_eq.trans ?_))))
  cases hr : received cfg (send g.call) with
  | error e =>
    show Prog.Sure _ ((if isUpstreamError e = true then _ else none).getD _) _ ↔
      isUpstreamError e = true
    by_cases he : isUpstreamError e = true
    · rw [if_pos he]
      refine iff_of_true ?_ he
      obtain ⟨r, hdetail⟩ := detail_ok "upstream unavailable" 503 Dict.empty rfl
      show Prog.Sure _ (Prog.bind (Prog.ofExcept (detail _ _ _)) _) IsOk
      rw [hdetail]
      exact isOk_ok _
    · rw [if_neg he]
      exact iff_of_false (not_isOk_error e) he
  | ok up =>
    have hascii : Url.isAscii (if g.cacheable then ("MISS" : Text) else "BYPASS") = true := by
      split <;> decide
    refine (Prog.sure_bind_of_sure readAnswers_total sure_storeIf).trans ?_
    refine Iff.trans ?_ (fromUpstream_ok_iff (received_ok hr) hascii)
    refine Prog.sure_bind.trans (Prog.sure_ofExcept.trans ?_)
    cases fromUpstream up (if g.cacheable then "MISS" else "BYPASS") with
    | ok r => exact iff_of_true (isOk_ok _) (isOk_ok r)
    | error e => exact iff_of_false (not_isOk_error e) (not_isOk_error e)

/-- A miss is always possible. -/
theorem sure_lookup_miss {g : GetCall}
    {Q : Except Exc (CacheStatus × Option CachedResponse) → Prop}
    (h : Prog.Sure (readAnswers cfg lib send) (lookup lib g) Q) : Q (.ok (.miss, none)) := by
  unfold lookup at h
  split at h
  · exact h (.ok (none : Option Text)) fun raw hraw => by cases hraw
  · exact h

/-- What the cache returns goes back to an answer of an upstream. -/
theorem sure_lookup (hjson : ∀ e, lib.modelValidateJson (lib.modelDumpJson e) = some e)
    {g : GetCall} :
    Prog.Sure (readAnswers cfg lib send) (lookup lib g) fun r => ∃ status entry,
      r = .ok (status, entry) ∧ ∀ e, entry = some e →
        ∃ up freshFor stored, isAsciiMap up.headers = true ∧ e = .build up freshFor stored := by
  have hmiss : ∀ {P : CachedResponse → Prop}, ∃ status entry,
      (.ok (.miss, none) : Except Exc (CacheStatus × Option CachedResponse)) =
        .ok (status, entry) ∧ ∀ e, entry = some e → P e :=
    ⟨.miss, none, rfl, fun e he => by cases he⟩
  unfold lookup
  split
  next =>
    refine Prog.sure_bind.mpr (sure_catchRedis hmiss fun v hv => ?_)
    cases v with
    | none => exact hmiss
    | some raw =>
      cases hentry : lib.modelValidateJson raw with
      | none =>
        simp only [hentry]
        exact hmiss
      | some entry =>
        simp only [hentry]
        cases entry.body with
        | error e => exact hmiss
        | ok b =>
          refine Prog.sure_bind.mpr (sure_await (fun e he => by cases he) fun now _ => ?_)
          refine ⟨_, _, rfl, fun e he => ?_⟩
          cases he
          exact (hv raw rfl).build hjson hentry
  next => exact hmiss

theorem sure_serve {e : CachedResponse} {status : CacheStatus}
    (he : ∃ up freshFor stored, isAsciiMap up.headers = true ∧ e = .build up freshFor stored) :
    Prog.Sure (readAnswers cfg lib send) (serve e status) IsOk := by
  obtain ⟨up, freshFor, stored, hascii, rfl⟩ := he
  refine Prog.sure_bind.mpr (sure_await (fun e he => by cases he) fun now _ => ?_)
  obtain ⟨r, hr⟩ := fromCache_build_ok hascii freshFor stored now status
  show Prog.Sure _ (Prog.bind (Prog.ofExcept (fromCache _ _ _)) _) IsOk
  rw [hr]
  exact isOk_ok _

/-- A read returns whatever the stores do, if and only if its upstream call is handled. -/
theorem sure_handleGet (hjson : ∀ e, lib.modelValidateJson (lib.modelDumpJson e) = some e)
    {g : GetCall} :
    Prog.Sure (readAnswers cfg lib send) (handleGet cfg lib g) IsOk ↔
      Handled (received cfg (send g.call)) := by
  have hiff : Prog.Sure (readAnswers cfg lib send) (fetch cfg lib g) IsOk ↔ _ := sure_fetch
  rw [← hiff]
  refine Prog.sure_bind.trans ⟨sure_lookup_miss, fun hfetch => ?_⟩
  refine (sure_lookup hjson).mono fun r hr => ?_
  obtain ⟨status, entry, rfl, hentry⟩ := hr
  cases entry with
  | none => cases status <;> exact hfetch
  | some e =>
    have hserve : ∀ status, Prog.Sure (readAnswers cfg lib send) (serve e status) IsOk :=
      fun _ => sure_serve (hentry e rfl)
    cases status with
    | hit => exact hserve .hit
    | miss => exact hfetch
    | stale =>
      exact (Prog.sure_bind_of_sure readAnswers_total sure_revalidate).mpr (hserve .stale)

end Reads

/-! ## Writes -/

/-- What the commands of a write may be answered. -/
def writeAnswers (send : Call → Except Exc UpstreamAnswer) :
    (c : Queue.Cmd ⊕ Call) → Except Exc (Sum.elim Queue.Ans Call.Ans c) → Prop
  | .inl c, .error e => c.raises e = true ∧ e ≠ .cancelled
  | .inl _, .ok _ => True
  | .inr req, r => r = send req

section Writes

variable {cfg : Config} {send : Call → Except Exc UpstreamAnswer} {c : WriteCall}

/-- What goes wrong while a write is queued is caught. -/
theorem sure_enqueueWrite (w : Queue.Write) :
    Prog.Sure (writeAnswers send) (Prog.lift (Queue.enqueueWrite cfg w) : WriteTask _)
      fun r => ∀ e, r = .error e → isQueueUnavailable e = true := by
  have hvalue : ∀ e, (.error .valueError : Except Exc Queue.EntryId) = .error e →
      isQueueUnavailable e = true := by
    intro e he
    cases he
    rfl
  rw [Prog.sure_lift, Queue.enqueueWrite]
  split
  · refine Prog.sure_bind.mpr (Prog.sure_issue.mpr fun now hnow => ?_)
    cases now with
    | error e => cases hnow.1
    | ok now =>
      refine Prog.sure_bind.mpr (Prog.sure_issue.mpr fun result hresult => ?_)
      cases result with
      | error e =>
        intro e' he'
        cases he'
        have hredis : e = .redisError := by
          obtain ⟨hraises, hne⟩ := hresult
          simp_all [Queue.Cmd.raises]
        rw [hredis]
        rfl
      | ok result =>
        cases result with
        | none => exact hvalue
        | some id => exact fun e he => by cases he
  · exact hvalue

theorem sure_queueWrite : Prog.Sure (writeAnswers send) (queueWrite cfg c) IsOk := by
  have hdone : ∀ text status headers, isAsciiMap headers = true →
      Prog.Sure (writeAnswers send) (Prog.ofExcept (detail text status headers)) IsOk :=
    fun text status headers h => Prog.sure_ofExcept.mpr (detail_ok text status headers h)
  refine Prog.sure_bind.mpr (Prog.sure_except.mpr (Prog.sure_bind.mpr
    ((sure_enqueueWrite c.toWrite).mono fun r hr => ?_)))
  cases r with
  | error e =>
    show Prog.Sure _ ((if isQueueUnavailable e = true then _ else none).getD _) _
    rw [if_pos (hr e rfl)]
    exact hdone _ _ _ rfl
  | ok id =>
    refine hdone _ _ _ ?_
    have hid := isAscii_digits id
    simp only [isAsciiMap, queuedHeaders, List.all_cons, List.all_nil, hid]
    decide

theorem sure_upstreamUnavailable (e : Exc) :
    Prog.Sure (writeAnswers send) (upstreamUnavailable cfg c e) IsOk := by
  unfold upstreamUnavailable
  split
  · exact sure_queueWrite
  · exact Prog.sure_ofExcept.mpr (detail_ok _ _ _ rfl)

/-- What the first handler of a write catches, the second would catch too. -/
theorem isUpstreamError_of_isUnavailable {e : Exc} (h : isUnavailable e = true) :
    isUpstreamError e = true := by
  cases e with
  | httpError e => rfl
  | _ => cases h

/-- A write returns whatever the queue does, if and only if its upstream call is
handled. -/
theorem sure_handleWrite :
    Prog.Sure (writeAnswers send) (handleWrite cfg c) IsOk ↔
      Handled (received cfg (send c.firstAttempt)) := by
  refine Prog.sure_bind.trans (Prog.sure_except.trans (Prog.sure_bind.trans
    (sure_callUpstream.trans (forall_eq.trans ?_))))
  cases hr : received cfg (send c.firstAttempt) with
  | ok up =>
    have hascii : Url.isAscii "PASS" = true := by decide
    exact Prog.sure_ofExcept.trans (fromUpstream_ok_iff (received_ok hr) hascii)
  | error e =>
    show Prog.Sure _ ((if isUnavailable e = true then some _
      else if isUpstreamError e = true then some _ else none).getD _) _ ↔ isUpstreamError e = true
    by_cases hun : isUnavailable e = true
    · rw [if_pos hun]
      refine iff_of_true ?_ (isUpstreamError_of_isUnavailable hun)
      refine Prog.sure_bind.mpr ((sure_upstreamUnavailable e).mono fun r hr => ?_)
      obtain ⟨response, rfl⟩ := hr
      exact isOk_ok _
    · rw [if_neg hun]
      by_cases he : isUpstreamError e = true
      · rw [if_pos he]
        refine iff_of_true ?_ he
        obtain ⟨r, hdetail⟩ := detail_ok "bad gateway" 502 Dict.empty rfl
        show Prog.Sure _ (Prog.bind (Prog.ofExcept (detail _ _ _)) _) _
        rw [hdetail]
        exact isOk_ok _
      · rw [if_neg he]
        exact iff_of_false (not_isOk_error e) he

end Writes

/-! ## When the encodings suffice -/

theorem handled_boundedResponse_iff {cfg : Config} {a : UpstreamAnswer} :
    Handled (boundedResponse cfg a) ↔
      (a.body.length ≤ cfg.settings.maxResponseBodyBytes →
        isAsciiMap (boundedHeaders a) = true ∧ ∀ c ∈ a.setCookie, isLatin1 c = true) := by
  unfold boundedResponse
  by_cases hlarge : a.body.length > cfg.settings.maxResponseBodyBytes
  · rw [if_pos hlarge]
    exact iff_of_true rfl fun h => absurd h (by omega)
  · rw [if_neg hlarge]
    by_cases hheaders : isAsciiMap (boundedHeaders a) = true
    · rw [if_pos hheaders]
      exact ⟨fun h _ => ⟨hheaders, h⟩, fun h => (h (by omega)).2⟩
    · rw [if_neg hheaders]
      exact iff_of_false (fun h => by cases h) fun h => hheaders (h (by omega)).1

/-- What the handlers can deal with once the client has taken the request. -/
def Digestible (cfg : Config) (o : Outcome) : Prop :=
  o ≠ .invalidURL ∧ ∀ raw, o = .answer raw →
    raw.body.length ≤ cfg.settings.maxResponseBodyBytes →
      (∀ name value, raw.report.headers.get? name = some value → copied raw.report name = true →
        Url.isAscii name = true ∧ Url.isAscii value = true) ∧
      ∀ c ∈ raw.report.setCookie, isLatin1 c = true

theorem isAsciiMap_boundedHeaders {a : UpstreamAnswer} :
    isAsciiMap (boundedHeaders a) = true ↔ ∀ name value, a.headers.get? name = some value →
      copied a name = true → Url.isAscii name = true ∧ Url.isAscii value = true := by
  rw [isAsciiMap_iff, boundedHeaders_eq]
  refine forall_congr' fun name => forall_congr' fun value => ?_
  rw [Dict.get?_filter (q := copied a) fun _ => rfl]
  cases copied a name <;> simp

/-- The cookies that the client keeps for this address can be written. -/
def HttpClient.Sendable (client : HttpClient) (jar : Jar) (url : Text) : Prop :=
  ∀ cookies, client.header jar url = some cookies → Url.isAscii cookies = true

/-- If the answer is a redirect, the next request can be built. -/
def HttpClient.Redirectable (client : HttpClient) (jar : Jar) (url : Text) (o : Outcome) : Prop :=
  ∀ raw next, o = .answer raw → client.redirect url raw.report = some next →
    client.Sendable (client.extract jar url raw.report) next

section Sending

variable {cfg : Config} {client : HttpClient} {jar jar' : Jar} {o : Outcome} {req : Call}

theorem sendable_iff {url : Text} :
    (client.header jar url).all Url.isAscii = true ↔ client.Sendable jar url :=
  Option.all_eq_true _ _

theorem added_ascii_iff : (client.added jar req).all Url.isAscii = true ↔
    ((∀ name value, req.headers.get? name = some value → lower name ≠ "cookie") →
      client.Sendable jar req.url) := by
  have hany : (req.headers.items.any fun e => lower e.1 == ("cookie" : Text)) = true ↔
      ¬∀ name value, req.headers.get? name = some value → lower name ≠ "cookie" := by
    simp only [List.any_eq_true, beq_iff_eq, Prod.exists, Dict.mem_items_iff, not_forall, not_not,
      exists_prop]
  unfold CookiePolicy.added
  split
  next h => exact iff_of_true rfl fun hnone => absurd hnone (hany.mp h)
  next h => exact sendable_iff.trans ⟨fun hs _ => hs, fun hs => hs (not_not.mp (mt hany.mpr h))⟩

theorem redirectable_answer_iff {url : Text} {raw : RawAnswer} :
    ((client.redirect url raw.report).all fun next =>
      (client.header (client.extract jar url raw.report) next).all Url.isAscii) = true ↔
    client.Redirectable jar url (.answer raw) := by
  rw [Option.all_eq_true]
  constructor
  · rintro h raw' next ⟨⟩ hnext
    exact sendable_iff.mp (h next hnext)
  · exact fun h next hnext => sendable_iff.mpr (h raw next rfl hnext)

theorem digestible_answer_iff {raw : RawAnswer} :
    Handled (boundedResponse cfg raw.report) ↔ Digestible cfg (.answer raw) := by
  rw [handled_boundedResponse_iff, isAsciiMap_boundedHeaders]
  constructor
  · intro h
    refine ⟨fun h => (by cases h), fun raw' hraw => ?_⟩
    cases hraw
    exact h
  · exact fun h => h.2 raw rfl

theorem handled_send_iff : Handled (received cfg (client.send jar jar' o req)) ↔
    client.acceptsUrl req.url = true ∧ isAsciiMap req.headers = true ∧
      (client.added jar req).all Url.isAscii = true ∧ client.Redirectable jar' req.url o ∧
      Digestible cfg o := by
  unfold HttpClient.send
  cases client.acceptsUrl req.url with
  | false => exact iff_of_false (fun h => by cases h) fun h => by cases h.1
  | true =>
  cases isAsciiMap req.headers with
  | false => exact iff_of_false (fun h => by cases h) fun h => by cases h.2.1
  | true =>
  cases (client.added jar req).all Url.isAscii with
  | false => exact iff_of_false (fun h => by cases h) fun h => by cases h.2.2.1
  | true =>
    rw [eq_self, true_and, true_and, true_and]
    cases o with
    | answer raw =>
      rw [← redirectable_answer_iff, ← digestible_answer_iff]
      simp only [Bool.not_true, Bool.false_eq_true, if_false]
      split
      next h =>
        rw [h, eq_self, true_and]
        exact Iff.rfl
      next h => exact iff_of_false (fun h => by cases h) fun hand => h hand.1
    | httpError e | deadline =>
      refine iff_of_true rfl ⟨fun _ _ h => (by cases h), fun h => (by cases h), fun _ h => ?_⟩
      cases h
    | invalidURL => exact iff_of_false (fun h => by cases h) fun h => h.2.1 rfl

end Sending

/-! ## The headers of a request -/

/-- The value under which a header of the request is forwarded: that of its last line,
unless the header belongs to the connection or to the gateway. -/
def Incoming.forwarded (inc : Incoming) (name : Text) : Option Text :=
  let connection := (Dict.lookup ("connection" : Text) inc.lines).getD []
  if name ∈ filledNames ∨ name ∈ ownHeaders ∨ dropped connection name = true then none
  else (Dict.values name inc.lines).getLast?

/-- What the gateway fills in is ASCII if the address of the client is. -/
theorem filledIn_ascii {r : Request} {name value : Text} (hip : Url.isAscii r.clientIp = true)
    (h : filledIn r name = some value) : Url.isAscii name = true ∧ Url.isAscii value = true := by
  have hquality : Url.isAscii r.networkQuality.value = true := by
    cases r.networkQuality <;> decide
  unfold filledIn at h
  split at h
  next hname =>
    cases h
    exact ⟨hname ▸ by decide, hquality⟩
  next =>
    split at h
    next hname =>
      cases h
      exact ⟨hname ▸ by decide, by decide⟩
    next =>
      split at h
      next hname =>
        cases h
        exact ⟨hname ▸ by decide, hip⟩
      next => cases h

/-- A discovered host is a plain host name. -/
theorem discovered_ascii {cfg : Config} {net : Resolver} {service base host : Text}
    (h : discoverUpstream cfg net service = some (base, host)) : Url.isAscii host = true := by
  have hname : isDiscoveryHostname service = true ∧ host = lower service := by
    unfold discoverUpstream at h
    simp only at h
    split at h
    next => cases h
    next hname =>
      split at h
      · cases h
      · split at h
        · cases h
        · cases h
        · split at h
          · cases h
            exact ⟨by simpa using hname, rfl⟩
          · cases h
  rw [hname.2]
  refine isAscii_lower ?_
  have hall := (Bool.and_eq_true_iff.mp hname.1).2
  rw [Url.isAscii, List.all_eq_true]
  rw [List.all_eq_true] at hall
  intro c hc
  have hc' := hall c hc
  simp only [isAsciiAlpha, isAsciiDigit, Bool.or_eq_true, decide_eq_true_eq, beq_iff_eq] at hc' ⊢
  rcases hc' with (hc' | rfl) | rfl
  · omega
  · decide
  · decide

/-- The `Host` line of the request stays behind. -/
theorem host_not_forwarded (r : Request) : (forwardHeaders r).get? "host" = none := by
  rw [get?_forwardHeaders, filledIn_of_not_mem (by decide), if_neg (by decide),
    get?_cleanHeaders_lines, if_pos (dropped_iff.mpr (Or.inl (by decide)))]
  rfl

/-- A property of all headers that leave the gateway need not be looked for at the name of
a discovered host, where it has it. -/
theorem forall_outgoingHeaders_iff {r : Request} {discoveryHost : Option Text}
    {P : Text → Text → Prop} (hhost : ∀ host, discoveryHost = some host → P "host" host) :
    (∀ name value, (outgoingHeaders discoveryHost r).get? name = some value → P name value) ↔
      ∀ name value, (forwardHeaders r).get? name = some value → P name value := by
  cases discoveryHost with
  | none => exact Iff.rfl
  | some host =>
    have hget : ∀ name, (outgoingHeaders (some host) r).get? name =
        if "host".toList = name then some host else (forwardHeaders r).get? name :=
      fun name => Dict.get?_set _ _ _ _
    constructor
    · intro h name value hvalue
      refine h name value ?_
      rw [hget, if_neg ?_, hvalue]
      rintro rfl
      rw [host_not_forwarded] at hvalue
      cases hvalue
    · intro h name value hvalue
      rw [hget] at hvalue
      split at hvalue
      next heq =>
        cases hvalue
        exact heq ▸ hhost host rfl
      next => exact h name value hvalue

/-- A forwarded header is filled in by the gateway or comes from the request. -/
theorem get?_forwardHeaders_request (inc : Incoming) (urlPath name : Text) :
    (forwardHeaders (inc.request urlPath)).get? name =
      (filledIn (inc.request urlPath) name).or (inc.forwarded name) := by
  rw [get?_forwardHeaders, get?_cleanHeaders_lines]
  by_cases hfilled : name ∈ filledNames
  · obtain ⟨value, hvalue⟩ := Option.isSome_iff_exists.mp
      (filledIn_isSome (r := inc.request urlPath) hfilled)
    rw [hvalue, Option.some_or, Option.some_or]
  · rw [filledIn_of_not_mem hfilled, Option.none_or, Option.none_or, Incoming.forwarded]
    by_cases hown : name ∈ ownHeaders
    · rw [if_pos hown, if_pos (Or.inr (Or.inl hown))]
    · rw [if_neg hown]
      refine if_congr ?_ rfl rfl
      rw [or_iff_right hfilled, or_iff_right hown]
      exact Iff.rfl

theorem forall_forwardHeaders_iff {inc : Incoming} {urlPath : Text} {P : Text → Text → Prop} :
    (∀ name value, (forwardHeaders (inc.request urlPath)).get? name = some value →
        P name value) ↔
      (∀ name value, filledIn (inc.request urlPath) name = some value → P name value) ∧
        ∀ name value, inc.forwarded name = some value → P name value := by
  simp only [get?_forwardHeaders_request, Option.or_eq_some_iff]
  constructor
  · intro h
    refine ⟨fun name value hvalue => h name value (Or.inl hvalue), fun name value hvalue => ?_⟩
    refine h name value (Or.inr ⟨filledIn_of_not_mem fun hmem => ?_, hvalue⟩)
    rw [Incoming.forwarded, if_pos (Or.inl hmem)] at hvalue
    cases hvalue
  · rintro ⟨hfilled, hforwarded⟩ name value (hvalue | ⟨-, hvalue⟩)
    · exact hfilled name value hvalue
    · exact hforwarded name value hvalue

/-- What the request has to bring for httpx to take its headers. -/
theorem isAsciiMap_forwardHeaders_iff (inc : Incoming) (urlPath : Text) :
    isAsciiMap (forwardHeaders (inc.request urlPath)) = true ↔
      Url.isAscii inc.clientIp = true ∧ ∀ name value, inc.forwarded name = some value →
        Url.isAscii name = true ∧ Url.isAscii value = true := by
  rw [isAsciiMap_iff, forall_forwardHeaders_iff]
  refine and_congr_left fun _ => ⟨fun h => ?_, fun hip name value => filledIn_ascii hip⟩
  exact (h "X-Forwarded-For" inc.clientIp rfl).2

/-- What the gateway fills in is no cookie. -/
theorem filledIn_not_cookie {r : Request} {name value : Text} (h : filledIn r name = some value) :
    lower name ≠ "cookie" := by
  have hnames : ∀ n ∈ filledNames, lower n ≠ "cookie" := by decide
  refine hnames name (not_not.mp fun hnot => ?_)
  rw [filledIn_of_not_mem hnot] at h
  cases h

theorem cookieless_forwardHeaders_iff (inc : Incoming) (urlPath : Text) :
    (∀ name value, (forwardHeaders (inc.request urlPath)).get? name = some value →
        lower name ≠ "cookie") ↔
      ∀ name value, inc.forwarded name = some value → lower name ≠ "cookie" :=
  forall_forwardHeaders_iff.trans (and_iff_right fun _ _ => filledIn_not_cookie)

/-! ## The route -/

/-- Where the request is sent, if the proxy does not answer it by itself. -/
def Incoming.target (cfg : Config) (net : Resolver) (inc : Incoming) : Option Text :=
  (destination cfg net inc.service).bind fun d =>
    (inc.urlParts cfg).bind fun url =>
      (buildTarget cfg d.1 inc.path url.query).filter fun _ =>
        decide (inc.body.length ≤ cfg.settings.maxRequestBodyBytes)

/-- `proxy` returns a response, whatever the stores do, if this becomes of the upstream
request. -/
def Returns (cfg : Config) (net : Resolver) (lib : Libraries) (client : HttpClient) (inc : Incoming)
    (jar jar' : Jar) (o : Outcome) : Prop :=
  match proxy cfg net inc with
  | .answer r => IsOk r
  | .get g => (handleGet cfg lib g).Sure (readAnswers cfg lib (client.send jar jar' o)) IsOk
  | .write c => (handleWrite cfg c).Sure (writeAnswers (client.send jar jar' o)) IsOk

section Returns

variable {cfg : Config} {net : Resolver} {lib : Libraries} {client : HttpClient} {inc : Incoming}
  {jar jar' : Jar} {o : Outcome}

theorem proxy_of_target_none (h : inc.target cfg net = none) :
    ∃ text status, proxy cfg net inc = .answer (detail text status Dict.empty) := by
  unfold Incoming.target at h
  unfold proxy
  cases hd : destination cfg net inc.service with
  | none => exact ⟨_, _, rfl⟩
  | some d =>
    rw [hd, Option.bind_some] at h
    cases hu : inc.urlParts cfg with
    | none => exact ⟨_, _, rfl⟩
    | some url =>
      rw [hu, Option.bind_some] at h
      simp only [Option.bind_some]
      cases ht : buildTarget cfg d.1 inc.path url.query with
      | none => exact ⟨_, _, rfl⟩
      | some target =>
        rw [ht, Option.filter_eq_none_iff] at h
        have hlarge := h target rfl
        simp only [decide_eq_true_eq] at hlarge
        simp only [Option.map_some]
        rw [if_pos (by omega)]
        exact ⟨_, _, rfl⟩

theorem proxy_of_target {target : Text} (h : inc.target cfg net = some target) :
    ∃ discoveryHost urlPath, (∀ host, discoveryHost = some host → Url.isAscii host = true) ∧
      let request := inc.request urlPath
      let rule := cfg.getRouteRule inc.service
      let fwdHeaders := outgoingHeaders discoveryHost request
      proxy cfg net inc = if inc.method = "GET" then .get ⟨request, target, rule, fwdHeaders⟩
        else .write ⟨request, target, fwdHeaders, inc.body, rule.queueWrites⟩ := by
  unfold Incoming.target at h
  obtain ⟨d, hd, h⟩ := Option.bind_eq_some_iff.mp h
  obtain ⟨url, hu, h⟩ := Option.bind_eq_some_iff.mp h
  obtain ⟨ht, hsmall⟩ := Option.filter_eq_some_iff.mp h
  refine ⟨d.2, url.path, ?_, ?_⟩
  · intro host hhost
    unfold destination at hd
    split at hd
    · cases hd
      cases hhost
    · obtain ⟨⟨base, host'⟩, hfound, rfl⟩ := Option.map_eq_some_iff.mp hd
      cases hhost
      exact discovered_ascii hfound
  · simp only [proxy, hd, hu, ht, Option.bind_some, Option.map_some]
    rw [if_neg (by have := of_decide_eq_true hsmall; omega)]

theorem returns_of_target_none (h : inc.target cfg net = none) :
    Returns cfg net lib client inc jar jar' o := by
  obtain ⟨text, status, hproxy⟩ := proxy_of_target_none h
  rw [Returns, hproxy]
  exact detail_ok text status Dict.empty rfl

/-- What becomes of the request with the headers that are forwarded. -/
theorem handled_forwarded_iff {discoveryHost : Option Text} {urlPath : Text} {req : Call}
    (hhost : ∀ host, discoveryHost = some host → Url.isAscii host = true)
    (hheaders : req.headers = outgoingHeaders discoveryHost (inc.request urlPath)) :
    Handled (received cfg (client.send jar jar' o req)) ↔
      client.acceptsUrl req.url = true ∧ (Url.isAscii inc.clientIp = true ∧
        ∀ name value, inc.forwarded name = some value →
          Url.isAscii name = true ∧ Url.isAscii value = true) ∧
      ((∀ name value, inc.forwarded name = some value → lower name ≠ "cookie") →
        client.Sendable jar req.url) ∧
      client.Redirectable jar' req.url o ∧ Digestible cfg o := by
  rw [handled_send_iff, added_ascii_iff, hheaders,
    forall_outgoingHeaders_iff fun _ _ => (by decide : lower "host" ≠ "cookie"),
    cookieless_forwardHeaders_iff, isAsciiMap_iff,
    forall_outgoingHeaders_iff fun host h => ⟨by decide, hhost host h⟩, ← isAsciiMap_iff,
    isAsciiMap_forwardHeaders_iff]

/-- A request that is forwarded. -/
theorem returns_of_target (hjson : ∀ e, lib.modelValidateJson (lib.modelDumpJson e) = some e)
    {target : Text} (h : inc.target cfg net = some target) :
    Returns cfg net lib client inc jar jar' o ↔
      client.acceptsUrl target = true ∧ (Url.isAscii inc.clientIp = true ∧
        ∀ name value, inc.forwarded name = some value →
          Url.isAscii name = true ∧ Url.isAscii value = true) ∧
      ((∀ name value, inc.forwarded name = some value → lower name ≠ "cookie") →
        client.Sendable jar target) ∧
      client.Redirectable jar' target o ∧ Digestible cfg o := by
  obtain ⟨discoveryHost, urlPath, hhost, hproxy⟩ := proxy_of_target h
  rw [Returns, hproxy]
  by_cases hget : inc.method = "GET"
  · rw [if_pos hget]
    exact (sure_handleGet hjson).trans (handled_forwarded_iff hhost rfl)
  · rw [if_neg hget]
    exact sure_handleWrite.trans (handled_forwarded_iff hhost rfl)

/-- No exception leaves the proxy, if and only if the request is not forwarded at all or
everything that is written anew on its way there and back fits the encoding: httpx
takes the address and the headers that are forwarded, and the cookies that it has kept for
the address if the request brings none, the upstream does not redirect to no address or to
one with other cookies, and an answer of admissible size brings only ASCII headers and
Latin-1 cookies. -/
theorem proxy_returns_iff (cfg : Config) (net : Resolver) (lib : Libraries)
    (hjson : ∀ e, lib.modelValidateJson (lib.modelDumpJson e) = some e) (client : HttpClient)
    (inc : Incoming) (jar jar' : Jar) (o : Outcome) :
    Returns cfg net lib client inc jar jar' o ↔ ∀ target, inc.target cfg net = some target →
      client.acceptsUrl target = true ∧
      (Url.isAscii inc.clientIp = true ∧ ∀ name value, inc.forwarded name = some value →
        Url.isAscii name = true ∧ Url.isAscii value = true) ∧
      ((∀ name value, inc.forwarded name = some value → lower name ≠ "cookie") →
        client.Sendable jar target) ∧
      client.Redirectable jar' target o ∧ Digestible cfg o := by
  cases ht : inc.target cfg net with
  | none => exact iff_of_true (returns_of_target_none ht) fun target h => by cases h
  | some target =>
    rw [returns_of_target hjson ht]
    constructor
    · intro h target' heq
      cases heq
      exact h
    · exact fun h => h target rfl

end Returns

/-! ## A name with an accent -/

section Mock

/-- Upstreams are listed, so nothing is resolved. -/
def mockResolver : Resolver := ⟨fun _ => none, fun _ => none⟩

/-- The first checks of `httpx.URL`, and redirects to a whole address. -/
def mockClient : HttpClient where
  toCookiePolicy := mockCookies
  acceptsUrl url := decide (url.length ≤ 65536) &&
    url.all fun c => decide (32 ≤ c.toNat ∧ c.toNat ≠ 127)
  redirect _ a := if [301, 302, 303, 307, 308].contains a.status then a.headers.get? "location"
    else none

def mockVisit : Incoming where
  method := "GET"
  service := "mock"
  path := "items"
  headers := [(utf8 "host", utf8 "gateway"), (utf8 "accept", utf8 "application/json")]
  clientIp := "127.0.0.1"

def mockReply : RawAnswer where
  status := 200
  headers := [(utf8 "content-type", utf8 "application/json")]
  body := utf8 "\x7b\"id\":1\x7d"

/-- The header line `x-name: é` in Latin-1. -/
def mockNamed : Incoming :=
  { mockVisit with headers := mockVisit.headers ++ [(utf8 "x-name", [0xe9])] }

/-- The header line `x-name: é` in UTF-8. -/
def mockNamedReply : RawAnswer :=
  { mockReply with headers := mockReply.headers ++ [(utf8 "x-name", [0xc3, 0xa9])] }

/-- The client keeps a cookie of this page and one of another. -/
def mockJar : Jar :=
  [⟨"sid", "alice", "mock.test", "/"⟩, ⟨"name", "é", "other.test", "/"⟩]

theorem proxy_returns_mock :
    mockVisit.target mockConfig mockResolver = some "http://mock.test/items".toList ∧
      Returns mockConfig mockResolver mockLibraries mockClient mockVisit mockJar mockJar
        (.answer mockReply) := by
  refine ⟨by decide +kernel, ?_⟩
  refine (proxy_returns_iff mockConfig mockResolver mockLibraries mockLibraries_json mockClient
    mockVisit mockJar mockJar (.answer mockReply)).mpr fun target htarget => ?_
  have heq : mockVisit.target mockConfig mockResolver = some "http://mock.test/items".toList := by
    decide +kernel
  rw [heq] at htarget
  cases htarget
  refine ⟨by decide +kernel, ?_, fun _ => sendable_iff.mp (by decide +kernel), ?_, ?_⟩
  · exact (isAsciiMap_forwardHeaders_iff mockVisit []).mp (by decide +kernel)
  · rintro raw next ⟨⟩ hredirect
    cases hredirect
  · refine ⟨fun h => (by cases h), fun raw hraw _ => ?_⟩
    cases hraw
    exact ⟨isAsciiMap_boundedHeaders.mp (by decide +kernel), by decide +kernel⟩

/-- The same text breaks the proxy from either side, and as a cookie of an earlier answer. -/
theorem accented_header_escapes :
    mockNamed.passesBoundary mockConfig = true ∧
      ¬Returns mockConfig mockResolver mockLibraries mockClient mockNamed [] []
        (.answer mockReply) ∧
      mockVisit.passesBoundary mockConfig = true ∧
      ¬Returns mockConfig mockResolver mockLibraries mockClient mockVisit [] []
        (.answer mockNamedReply) ∧
      ¬Returns mockConfig mockResolver mockLibraries mockClient mockVisit
        [⟨"name", "é", "mock.test", "/"⟩] [] (.answer mockReply) := by
  have hnamed : mockNamed.target mockConfig mockResolver = some "http://mock.test/items".toList := by
    decide +kernel
  have hvisit : mockVisit.target mockConfig mockResolver = some "http://mock.test/items".toList := by
    decide +kernel
  refine ⟨by decide +kernel, ?_, by decide +kernel, ?_, ?_⟩
  · rw [returns_of_target mockLibraries_json hnamed]
    rintro ⟨-, ⟨-, hforwarded⟩, -⟩
    exact absurd (hforwarded "x-name" "é" (by decide +kernel)).2 (by decide)
  · rw [returns_of_target mockLibraries_json hvisit]
    rintro ⟨-, -, -, -, -, hanswer⟩
    have hsmall : mockNamedReply.body.length ≤ mockConfig.settings.maxResponseBodyBytes := by
      decide +kernel
    have hcopied := (hanswer mockNamedReply rfl hsmall).1 "x-name" "é" (by decide +kernel)
      (by decide +kernel)
    exact absurd hcopied.2 (by decide)
  · rw [returns_of_target mockLibraries_json hvisit]
    rintro ⟨-, -, hsendable, -⟩
    have hnone : ((forwardHeaders (mockVisit.request [])).items.all fun e =>
        decide (lower e.1 ≠ "cookie")) = true := by
      decide +kernel
    have hcookieless := (cookieless_forwardHeaders_iff mockVisit []).mp fun name value hget =>
      of_decide_eq_true (List.all_eq_true.mp hnone (name, value) (Dict.mem_items_iff.mpr hget))
    exact absurd (hsendable hcookieless "name=é" (by decide +kernel)) (by decide)

end Mock

end Proxy
end AdaptiveGateway
