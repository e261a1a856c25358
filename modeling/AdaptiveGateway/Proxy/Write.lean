/-
Proxied writes and their later replay.

`_handle_write` forwards a write once.  When the upstream times out or cannot be
reached it may hand the write to the offline queue, and what it answers has to
agree with what the queue then holds.  `gateway` puts any number of such handlers
beside the sync workers.

`tried` and `touched` are history: the upstream call of each handler with its
outcome, and whether a command of the thread has changed the stream.
-/
import AdaptiveGateway.Proxy.Message
import AdaptiveGateway.Queue.NoLoss

namespace AdaptiveGateway
namespace Proxy

open Codec Concurrent
open Queue (Thread EntryId Event Accounted Grows)

/-! ## `_handle_write` -/

/-- The arguments of `_handle_write`. -/
structure WriteCall where
  request : Request
  target : Text
  fwdHeaders : Dict Text Text
  body : Bytes
  queueWrites : Bool

namespace WriteCall

def firstAttempt (c : WriteCall) : Call := ⟨c.request.method, c.target, c.fwdHeaders, c.body⟩

/-- The arguments of `enqueue_write`. -/
def toWrite (c : WriteCall) : Queue.Write where
  method := c.request.method
  url := c.target
  path := c.request.path
  headers := c.fwdHeaders
  body := c.body
  clientId := some ((c.request.userId.filter (!·.isEmpty)).getD c.request.clientIp)

/-- `str.isascii() and str.isprintable()`. -/
def isPrintableAscii (t : Text) : Bool := t.all fun c => decide (32 ≤ c.toNat ∧ c.toNat ≤ 126)

def eligible (c : WriteCall) : Bool :=
  let key := (c.request.header "idempotency-key").getD []
  c.queueWrites && Queue.writeMethods.contains c.request.method &&
    decide (1 ≤ key.length ∧ key.length ≤ 128) && isPrintableAscii key

end WriteCall

/-- `except (httpx.TimeoutException, httpx.ConnectError)`. -/
def isUnavailable : Exc → Bool
  | .httpError e => e.isTimeout || e == .connectError
  | _ => false

/-- `isinstance(exc, httpx.TimeoutException)`. -/
def isTimeout : Exc → Bool
  | .httpError e => e.isTimeout
  | _ => false

/-- `except (RedisError, ValueError)`; a `UnicodeError` is a `ValueError`. -/
def isQueueUnavailable : Exc → Bool
  | .redisError | .valueError | .unicodeError => true
  | _ => false

abbrev WriteTask := Task Queue.Cmd Queue.Ans

def queuedHeaders (id : EntryId) : Dict Text Text where
  items := [("X-Queue-Id", (toString id).toList), ("X-Cache-Status", "QUEUED")]
  nodup := by
    show [("X-Queue-Id" : Text), "X-Cache-Status"].Nodup
    decide

/-- `_handle_write` from the point where the write is found fit to be queued. -/
def queueWrite (cfg : Config) (c : WriteCall) : WriteTask Response := do
  let queued ← Prog.except (do
      let id ← Prog.lift (Queue.enqueueWrite cfg c.toWrite)
      return some id)
    fun e => if isQueueUnavailable e then some (.ret none) else none
  match queued with
  | none => Prog.ofExcept (detail "queue unavailable; write outcome unknown" 503 Dict.empty)
  | some id =>
    Prog.ofExcept (detail "upstream unavailable; write queued for retry" 202 (queuedHeaders id))

/-- The handler for an upstream that timed out or could not be reached. -/
def upstreamUnavailable (cfg : Config) (c : WriteCall) (e : Exc) : WriteTask Response :=
  if c.eligible then queueWrite cfg c
  else Prog.ofExcept (detail "upstream unavailable; write outcome unknown; not queued"
    (if isTimeout e then 504 else 502) Dict.empty)

def handleWrite (cfg : Config) (c : WriteCall) : WriteTask Response := do
  let forwarded ← Prog.except (do
      let resp ← callUpstream cfg c.firstAttempt
      return Sum.inl resp)
    fun e =>
      if isUnavailable e then some (do
        let response ← upstreamUnavailable cfg c e
        return Sum.inr response)
      else if isUpstreamError e then some (do
        let response ← Prog.ofExcept (detail "bad gateway" 502 Dict.empty)
        return Sum.inr response)
      else none
  match forwarded with
  | .inl resp => Prog.ofExcept (fromUpstream resp "PASS")
  | .inr response => return response

/-! ## Handlers and workers side by side -/

structure World where
  queue : Queue.World := {}
  tried : Thread → Option (Call × Except Exc UpstreamAnswer) := fun _ => none
  touched : Thread → Bool := fun _ => false

def exec (i : Thread) : (c : Queue.Cmd ⊕ Call) → Choice → World →
    Option (Except Exc (Sum.elim Queue.Ans Call.Ans c) × World)
  | .inl c, ch, s => (Queue.exec i c ch s.queue).map fun o => (o.1,
      { s with
        queue := o.2
        touched := if o.2.stream = s.queue.stream then s.touched
          else Function.update s.touched i true })
  | .inr req, ch, s => (Call.outcome ch).map fun r =>
      (r, { s with tried := Function.update s.tried i (some (req, r)) })

def boot (cfg : Config) (calls : Nat → WriteCall) : Thread → WriteTask (Option Response)
  | .worker _ => do
    let _ ← Prog.lift (Queue.round cfg)
    return none
  | .client n => do
    let response ← handleWrite cfg (calls n)
    return some response

def again (cfg : Config) (calls : Nat → WriteCall) :
    Thread → Except Exc (Option Response) → Option (WriteTask (Option Response))
  | .worker n, .ok _ => some (boot cfg calls (.worker n))
  | _, _ => none

def gateway (cfg : Config) (calls : Nat → WriteCall) :
    Machine Thread (Queue.Cmd ⊕ Call) (Sum.elim Queue.Ans Call.Ans) Exc (Option Response) World
      Choice Time where
  exec := exec
  env d s := some { s with queue := Queue.advance d s.queue }
  drop i s := { s with queue := Queue.dropThread i s.queue }
  boot := boot cfg calls
  again := again cfg calls

/-! ## What an answer says -/

def Response.saysNotQueued (r : Response) : Prop := utf8 "not queued" <:+: r.content

/-- The exception that `_call_upstream` raises for an exception of the client. -/
def deadline (e : Exc) : Exc := if e = .timeoutError then .httpError .readTimeout else e

/-- The upstream call of the thread ended in a timeout or a refused connection. -/
def Unreached (s : World) (i : Thread) (req : Call) : Prop :=
  ∃ e, s.tried i = some (req, .error e) ∧ isUnavailable (deadline e) = true

/-- The answer is true of the queue: a 202 after a failed upstream call names the
entry that was added, and "not queued" means what it says. -/
structure Truthful (c : WriteCall) (s : World) (i : Thread) (r : Response) : Prop where
  queued : Unreached s i c.firstAttempt → r.status = 202 →
    ∃ id now, r.header "x-queue-id" = some (toString id).toList ∧
      Event.added id (Queue.entry c.toWrite now).encode ∈ s.queue.log
  notQueued : r.saysNotQueued → s.touched i = false

/-! ## The tasks -/

/-- The queue's own contract, and each thread's history left to the thread. -/
def register (cfg : Config) (calls : Nat → WriteCall) : Contract (gateway cfg calls) Guard.any where
  I s := Accounted s.queue
  R i s t := Grows s.queue t.queue ∧ t.tried i = s.tried i ∧ t.touched i = s.touched i
  G i s t := Grows s.queue t.queue ∧ ∀ j, i ≠ j → t.tried j = s.tried j ∧ t.touched j = s.touched j
  Q
    | .client n, .ok (some r), s => Truthful (calls n) s (.client n) r ∧
        ∃ o, s.tried (.client n) = some ((calls n).firstAttempt, o)
    | _, _, _ => True
  refl _ _ := ⟨Grows.refl _, rfl, rfl⟩
  trans _ _ _ _ h h' := ⟨h.1.trans h'.1, h'.2.1.trans h.2.1, h'.2.2.trans h.2.2⟩
  others i j _ _ hij _ _ h := ⟨h.1, h.2 j hij⟩
  env d s s' _ hI h := by
    cases h
    have hg : Grows s.queue (Queue.advance d s.queue) :=
      ⟨List.Subset.refl _, List.Subset.refl _⟩
    exact ⟨hI.congr hg rfl (fun _ _ h => h) hI.genuine rfl, fun _ => ⟨hg, rfl, rfl⟩⟩
  crash i s _ hI := by
    have hg : Grows s.queue (Queue.dropThread i s.queue) :=
      ⟨List.Subset.refl _, List.Subset.refl _⟩
    exact ⟨hI.congr hg rfl (fun _ _ h => h) hI.genuine rfl, fun _ _ => ⟨hg, rfl, rfl⟩⟩

section Tasks

variable {cfg : Config} {calls : Nat → WriteCall} {i : Thread} {s : World} {c : WriteCall}

/-- A program of the queue is as correct beside the handlers as it is alone. -/
theorem lift_wp {α : Type} {p : Queue.Prog α} {Q : Except Exc α → Queue.World → Prop}
    {x : Option (Call × Except Exc UpstreamAnswer)}
    (hp : p.wp ((Queue.ledger cfg fun n => (calls n).toWrite).pact i) Q s.queue)
    (hs : s.tried i = x) :
    (Prog.lift p : WriteTask α).wp ((register cfg calls).pact i)
      (fun r t => Q r t.queue ∧ t.tried i = x) s := by
  refine Prog.wp_lift (fun _ => Iff.rfl) (fun _ _ h => h.1) (fun _ _ h hR => hR.2.1.trans h) ?_ hp hs
  rintro c s r s' hL ⟨ch, -, hI, hexec⟩
  obtain ⟨⟨r', q⟩, hq, heq⟩ := Option.map_eq_some_iff.mp hexec
  cases heq
  refine ⟨⟨ch, trivial, hI, hq⟩, hL, fun hg => ⟨hg, fun j hij => ⟨rfl, ?_⟩⟩⟩
  show (if _ then s.touched else _) j = s.touched j
  split
  next => rfl
  next => exact Function.update_of_ne (Ne.symm hij) ..

/-- What is left on record of an upstream call. -/
theorem callUpstream_wp (req : Call) (hs : s.touched i = false) :
    (callUpstream cfg req : WriteTask UpstreamResponse).wp ((register cfg calls).pact i)
      (fun r t => t.touched i = false ∧ ∃ o, t.tried i = some (req, o) ∧
        ∀ e, o = .error e → r = .error (deadline e)) s := by
  refine Prog.wp_except (Prog.wp_seq (L := fun r t => t.touched i = false ∧
    t.tried i = some (req, r)) (Prog.wp_issue ?_) (fun e t h => ?_) fun a t h => ?_)
  · rintro r s' ⟨ch, -, hI, hexec⟩
    obtain ⟨r', -, heq⟩ := Option.map_eq_some_iff.mp hexec
    cases heq
    refine ⟨hI, ⟨Grows.refl _, fun j hij => ⟨Function.update_of_ne (Ne.symm hij) .., rfl⟩⟩,
      fun t _ ht => ⟨ht.2.2.trans hs, ?_⟩⟩
    rw [ht.2.1]
    exact Function.update_self ..
  · have hdeadline : (∀ e', (Except.error e : Except Exc UpstreamAnswer) = .error e' →
        (Except.error (deadline e) : Except Exc UpstreamResponse) = .error (deadline e')) := by
      rintro e' ⟨⟩
      rfl
    by_cases he : e = .timeoutError
    · simp only [if_pos he, Option.getD_some]
      exact ⟨h.1, _, h.2, fun e' heq => by rw [← hdeadline e' heq, deadline, if_pos he]⟩
    · simp only [if_neg he, Option.getD_none]
      exact ⟨h.1, _, h.2, fun e' heq => by rw [← hdeadline e' heq, deadline, if_neg he]⟩
  · have hnever : ∀ {r : Except Exc UpstreamResponse} e,
        (Except.ok a : Except Exc UpstreamAnswer) = .error e → r = .error (deadline e) := by
      rintro r e ⟨⟩
    cases hresp : boundedResponse cfg a with
    | ok resp => exact ⟨h.1, _, h.2, hnever⟩
    | error e =>
      have hnot : e ≠ .timeoutError := by
        rcases boundedResponse_error hresp with rfl | rfl <;> exact fun h => by cases h
      show Prog.wp _ ((if e = .timeoutError then _ else none).getD _) _ t
      rw [if_neg hnot]
      exact ⟨h.1, _, h.2, hnever⟩

/-- A queued write is acknowledged with the id it was added under. -/
theorem queueWrite_wp {x : Option (Call × Except Exc UpstreamAnswer)} (hs : s.tried i = x) :
    (queueWrite cfg c).wp ((register cfg calls).pact i)
      (fun r t => t.tried i = x ∧ ∀ resp, r = .ok resp → Truthful c t i resp) s := by
  have hadd : (Prog.except (do
        let id ← Prog.lift (Queue.enqueueWrite cfg c.toWrite)
        return some id)
      fun e => if isQueueUnavailable e then some (.ret none) else none : WriteTask _).wp
      ((register cfg calls).pact i) (fun r t => t.tried i = x ∧ ∀ id, r = .ok (some id) →
        ∃ now, Event.added id (Queue.entry c.toWrite now).encode ∈ t.queue.log) s := by
    refine Prog.wp_except (Prog.wp_seq (lift_wp (Queue.enqueueWrite_wp c.toWrite) hs)
      (fun e t h => ?_) fun id t h => ⟨h.2, ?_⟩)
    · by_cases he : isQueueUnavailable e = true
      · simp only [if_pos he, Option.getD_some]
        exact ⟨h.2, by simp⟩
      · simp only [if_neg he, Option.getD_none]
        exact ⟨h.2, by simp⟩
    · rintro _ ⟨⟩
      exact h.1 id rfl
  refine Prog.wp_seq hadd (fun e t h => ⟨h.1, by simp⟩) fun queued t h => ?_
  cases queued with
  | none =>
    refine Prog.wp_ofExcept fun r hr => ⟨h.1, ?_⟩
    rintro resp rfl
    obtain ⟨hstatus, hcontent, -⟩ := Response.make_ok hr.symm
    refine ⟨fun _ h202 => ?_, fun hsays => ?_⟩
    · rw [hstatus] at h202
      cases h202
    · rw [Response.saysNotQueued, hcontent] at hsays
      exact absurd hsays (by decide +kernel)
  | some id =>
    refine Prog.wp_ofExcept fun r hr => ⟨h.1, ?_⟩
    rintro resp rfl
    obtain ⟨-, hcontent, more, hraw⟩ := Response.make_ok hr.symm
    obtain ⟨now, hnow⟩ := h.2 id rfl
    refine ⟨fun _ _ => ⟨id, now, ?_, hnow⟩, fun hsays => ?_⟩
    · rw [Response.header, hraw]
      rfl
    · rw [Response.saysNotQueued, hcontent] at hsays
      exact absurd hsays (by decide +kernel)

theorem upstreamUnavailable_wp {x : Option (Call × Except Exc UpstreamAnswer)}
    (hs : s.tried i = x) (htouched : s.touched i = false) (e : Exc) :
    (upstreamUnavailable cfg c e).wp ((register cfg calls).pact i)
      (fun r t => t.tried i = x ∧ ∀ resp, r = .ok resp → Truthful c t i resp) s := by
  unfold upstreamUnavailable
  by_cases hc : c.eligible = true
  · rw [if_pos hc]
    exact queueWrite_wp hs
  · rw [if_neg hc]
    refine Prog.wp_ofExcept fun r hr => ⟨hs, ?_⟩
    rintro resp rfl
    obtain ⟨hstatus, -⟩ := Response.make_ok hr.symm
    refine ⟨fun _ h202 => ?_, fun _ => htouched⟩
    rw [hstatus] at h202
    split at h202 <;> cases h202

/-- A handler's answer is true, and it made the upstream call it was asked to. -/
theorem handleWrite_wp (hs : s.touched i = false) :
    (handleWrite cfg c).wp ((register cfg calls).pact i)
      (fun r t => ∀ resp, r = .ok resp →
        Truthful c t i resp ∧ ∃ o, t.tried i = some (c.firstAttempt, o)) s := by
  refine Prog.wp_seq (L := fun r t => ∀ f, r = .ok f →
      (∃ o, t.tried i = some (c.firstAttempt, o)) ∧ match f with
        | .inl _ => ¬Unreached t i c.firstAttempt ∧ t.touched i = false
        | .inr resp => Truthful c t i resp)
    (Prog.wp_except (Prog.wp_seq (callUpstream_wp c.firstAttempt hs) (fun e t h => ?_)
      fun resp t h => ?_))
    (fun _ _ _ => by simp) fun f t h => ?_
  · -- The call has raised `e`, which is the deadline's version of what is on record.
    obtain ⟨htouched, o, ho, hraised⟩ := h
    have hsame : Unreached t i c.firstAttempt → isUnavailable e = true := by
      rintro ⟨e', he', hun⟩
      rw [ho] at he'
      obtain ⟨-, rfl⟩ := Prod.mk.inj (Option.some.inj he')
      rw [Except.error.inj (hraised e' rfl)]
      exact hun
    by_cases hun : isUnavailable e = true
    · simp only [if_pos hun, Option.getD_some]
      refine Prog.wp_seq (upstreamUnavailable_wp ho htouched e) (fun _ _ _ => by simp) ?_
      rintro resp u ⟨hu, htrue⟩ _ ⟨⟩
      exact ⟨⟨o, hu⟩, htrue resp rfl⟩
    · simp only [if_neg hun]
      by_cases hup : isUpstreamError e = true
      · simp only [if_pos hup, Option.getD_some]
        refine Prog.wp_bind (Prog.wp_ofExcept fun r hr => ?_)
        cases r with
        | error e => simp
        | ok resp =>
          rintro _ ⟨⟩
          exact ⟨⟨o, ho⟩, fun h => absurd (hsame h) hun, fun _ => htouched⟩
      · simp only [if_neg hup, Option.getD_none]
        exact fun _ h => by cases h
  · obtain ⟨htouched, o, ho, hraised⟩ := h
    rintro _ ⟨⟩
    refine ⟨⟨o, ho⟩, ?_, htouched⟩
    rintro ⟨e', he', -⟩
    rw [ho] at he'
    obtain ⟨-, rfl⟩ := Prod.mk.inj (Option.some.inj he')
    cases hraised e' rfl
  · obtain ⟨ho, hf⟩ := h f rfl
    cases f with
    | inl resp =>
      refine Prog.wp_ofExcept fun r _ => ?_
      exact fun _ _ => ⟨⟨fun h => absurd h hf.1, fun _ => hf.2⟩, ho⟩
    | inr resp =>
      rintro _ ⟨⟩
      exact ⟨hf, ho⟩

theorem worker_wp (n : Nat) :
    (boot cfg calls (.worker n)).wp ((register cfg calls).pact i) (fun _ _ => True) s :=
  Prog.wp_seq (lift_wp Queue.round_wp rfl) (fun _ _ _ => trivial) fun _ _ _ => trivial

theorem again_wp {r : Except Exc (Option Response)} {p : WriteTask (Option Response)}
    (h : again cfg calls i r = some p) :
    p.wp ((register cfg calls).pact i) ((register cfg calls).Q i) s := by
  cases i with
  | worker n =>
    cases r with
    | ok a =>
      cases h
      exact Prog.wp_mono (fun _ _ _ => trivial) (worker_wp n)
    | error e => cases h
  | client n => cases h

theorem boot_wp (hs : s.touched i = false) :
    (boot cfg calls i).wp ((register cfg calls).pact i) ((register cfg calls).Q i) s := by
  cases i with
  | worker n => exact Prog.wp_mono (fun _ _ _ => trivial) (worker_wp n)
  | client n =>
    refine Prog.wp_seq (handleWrite_wp hs) (fun _ _ _ => trivial) fun resp t ht => ?_
    exact ht resp rfl

end Tasks

/-! ## Runs -/

section Runs

variable {cfg : Config} {calls : Nat → WriteCall}
  {q q' : Pool Thread (Queue.Cmd ⊕ Call) (Sum.elim Queue.Ans Call.Ans) Exc (Option Response) World}

theorem register_sound
    (h : (gateway cfg calls).Reach Guard.any ((gateway cfg calls).start {}) q) :
    Accounted q.state.queue ∧ ∀ i p, q.prog i = some p → (register cfg calls).Kept i q.state p := by
  have hstart : (register cfg calls).I {} := Queue.accounted_start
  exact (register cfg calls).sound hstart (fun _ _ _ hR => boot_wp hR.2.2)
    (fun _ _ _ _ h _ _ => again_wp h) h

theorem reach_grows (h : (gateway cfg calls).Reach Guard.any q q') :
    Grows q.state.queue q'.state.queue := by
  refine h.state_invariant (J := fun s => Grows q.state.queue s.queue) ?_ ?_ ?_ (Grows.refl _)
  · intro i c ch s r s' _ hs he
    cases c with
    | inl c =>
      obtain ⟨o, ho, heq⟩ := Option.map_eq_some_iff.mp he
      cases heq
      exact hs.trans (Queue.exec_grows ho)
    | inr req =>
      obtain ⟨o, -, heq⟩ := Option.map_eq_some_iff.mp he
      cases heq
      exact hs
  · exact fun i s _ hs => hs.trans ⟨List.Subset.refl _, List.Subset.refl _⟩
  · rintro d s s' - hs ⟨⟩
    exact hs.trans ⟨List.Subset.refl _, List.Subset.refl _⟩

/-- The request as a replay carries it, with the header values read from JSON. -/
def asReplayed (req : Call) : HttpRequest (Dict Text Json) :=
  ⟨req.method, req.url, req.headers.mapVal Json.str, req.content⟩

/-- Whatever is sent for an entry is the first attempt of its write once more. -/
theorem sent_eq_firstAttempt {s : Queue.World} (hs : Accounted s) {c : WriteCall} {id : EntryId}
    {now : Time} (hadded : Event.added id (Queue.entry c.toWrite now).encode ∈ s.log)
    {t : Option Queue.Token} {req : HttpRequest (Dict Text Json)}
    (hsent : Event.sent id t req ∈ s.log) : req = asReplayed c.firstAttempt := by
  obtain ⟨f, headers, ⟨b, hb, hf⟩, hheaders, hreq⟩ := hs.genuine id t req hsent
  rw [hs.unique id _ _ hb hadded, Queue.Fields.decode_encode] at hf
  cases hf
  rw [Queue.loadHeaders_entry] at hheaders
  cases hheaders
  rw [Queue.replayRequest_entry] at hreq
  cases hreq
  rfl

/-- A handler has answered.  If its upstream call timed out or was refused and it
answered 202, the entry of the id it gave is in the stream until it is settled,
and every replay of it, by any worker, repeats the method, the URL, the headers
and the body of the upstream call.  If it said that the write is not queued, it
has not changed the stream. -/
theorem replay_repeats_first_attempt {n : Nat} {resp : Response}
    (hq : (gateway cfg calls).Reach Guard.any ((gateway cfg calls).start {}) q)
    (hret : q.prog (.client n) = some (.ret (some resp)))
    (hq' : (gateway cfg calls).Reach Guard.any q q') :
    (∀ first e, q.state.tried (.client n) = some (first, .error e) →
      isUnavailable (deadline e) = true → resp.status = 202 →
      ∃ id now, resp.header "x-queue-id" = some (toString id).toList ∧
        ((id, (Queue.entry (calls n).toWrite now).encode) ∈ q'.state.queue.stream ∨
          Queue.Settled q'.state.queue id (Queue.entry (calls n).toWrite now).encode) ∧
        ∀ t req, Event.sent id t req ∈ q'.state.queue.log → req = asReplayed first) ∧
    (resp.saysNotQueued → q.state.touched (.client n) = false) := by
  obtain ⟨hI, hkept⟩ := register_sound hq
  obtain ⟨htrue, o, ho⟩ := hkept (.client n) _ hret q.state hI ((register cfg calls).refl _ _)
  refine ⟨fun first e htried hdown h202 => ?_, htrue.notQueued⟩
  rw [htried] at ho
  cases ho
  obtain ⟨id, now, hid, hadded⟩ := htrue.queued ⟨e, htried, hdown⟩ h202
  have hadded' := (reach_grows hq').log hadded
  obtain ⟨hI', -⟩ := register_sound (hq.trans hq')
  refine ⟨id, now, hid, ?_, fun t req hsent => sent_eq_firstAttempt hI' hadded' hsent⟩
  rcases hI'.kept id _ hadded' with hin | hsettled
  · obtain ⟨b, hb⟩ := Queue.has_iff.mp hin
    rw [hI'.unique id _ _ hadded' (hI'.origin _ hb)]
    exact Or.inl hb
  · exact Or.inr hsettled

/-- The answer of a handler that has come to its end. -/
def answered
    (p : Pool Thread (Queue.Cmd ⊕ Call) (Sum.elim Queue.Ans Call.Ans) Exc (Option Response) World)
    (n : Nat) : Option Response :=
  match p.prog (.client n) with
  | some (.ret r) => r
  | _ => none

/-- The entries that requests were issued for, latest first. -/
def sentIds (log : List Event) : List EntryId :=
  log.filterMap fun e => match e with
    | .sent m _ _ => some m
    | _ => none

/-- The write of the queue tests as it arrives at the proxy. -/
def mockRequest : Request where
  method := "PATCH"
  headers := [("idempotency-key", "unique"), ("content-type", "application/octet-stream")]
  path := "/proxy/mock/items"
  userId := some "test"
  clientIp := "127.0.0.1"

def mockCall : WriteCall where
  request := mockRequest
  target := "http://mock.test/items?q=1"
  fwdHeaders := forwardHeaders mockRequest
  body := [0x00, 0xff]
  queueWrites := true

/-- The upstream call times out, the write is queued as entry 1, and a worker sends
it. -/
theorem replay_repeats_first_attempt_mock :
    let M := gateway mockConfig fun _ => mockCall
    ∃ q q' resp first, M.Reach Guard.any (M.start {}) q ∧
      q.prog (.client 0) = some (.ret (some resp)) ∧ resp.status = 202 ∧
      q.state.tried (.client 0) = some (first, .error (.httpError .readTimeout)) ∧
      resp.header "x-queue-id" = some "1".toList ∧ M.Reach Guard.any q q' ∧
      sentIds q'.state.queue.log = [1] ∧
      ∃ id : EntryId, resp.header "x-queue-id" = some (toString id).toList ∧
        ∀ t req, Event.sent id t req ∈ q'.state.queue.log → req = asReplayed first := by
  intro M
  have hrun : ((M.run (M.start {}) (.act (.client 0) (.refuse (.httpError .readTimeout)) ::
      Queue.steps (.client 0) 2)).bind fun q => (M.run q (Queue.steps (.worker 0) 11)).map fun q' =>
        (((answered q 0).map fun r => (r.status, r.header "x-queue-id")),
          (q.state.tried (.client 0)).map fun x => decide (x.2 = .error (.httpError .readTimeout)),
          sentIds q'.state.queue.log)) =
      some (some (202, some "1".toList), some true, [1]) := by decide +kernel
  obtain ⟨q, hq, hmap⟩ := Option.bind_eq_some_iff.mp hrun
  obtain ⟨q', hq', hobs⟩ := Option.map_eq_some_iff.mp hmap
  simp only [Prod.mk.injEq, Option.map_eq_some_iff] at hobs
  obtain ⟨⟨resp, hanswered, hstatus, hid⟩, ⟨⟨first, o⟩, htried, hx⟩, hsent⟩ := hobs
  obtain rfl : o = .error (.httpError .readTimeout) := of_decide_eq_true hx
  have hret : q.prog (.client 0) = some (.ret (some resp)) := by
    unfold answered at hanswered
    split at hanswered
    next r hr => rw [hr, hanswered]
    next => cases hanswered
  have hreach := Machine.reach_of_run hq
  have hreach' := Machine.reach_of_run hq'
  obtain ⟨id, now, hid', -, hsame⟩ :=
    (replay_repeats_first_attempt hreach hret hreach').1 first _ htried rfl hstatus
  exact ⟨q, q', resp, first, hreach, hret, hstatus, htried, hid, hreach', hsent, id, hid', hsame⟩

end Runs

end Proxy
end AdaptiveGateway
