/-
Dead letters and the constraints of their table.

`enqueue_write` checks the method, the destination, the idempotency key and the
size of the body.  PostgreSQL checks column lengths and refuses U+0000.  The two
lists do not cover each other, and an entry whose row is refused raises on every
terminal outcome without being acknowledged.
-/
import AdaptiveGateway.Queue.Effects

namespace AdaptiveGateway
namespace Queue

open Codec Concurrent

variable {i : Thread} {s s' : World} {m : EntryId} {cfg : Config}

/-! ## The row of an accepted write -/

/-- What the table demands of a write beyond the admission checks. -/
structure Storable (w : Write) : Prop where
  path_length : w.path.length ≤ 2048
  path_noNul : noNul w.path = true
  client_length : (w.clientId.getD []).length ≤ 128
  client_noNul : noNul (w.clientId.getD []) = true
  body_noNul : (0 : UInt8) ∉ w.body
  headers_noNul : ∀ e ∈ w.headers.items, deadLetterHeaders.contains (lower e.1) = true →
    noNul e.1 = true ∧ noNul e.2 = true

theorem membersNoNul_iff (ms : List (Text × Text)) :
    membersNoNul (ms.map fun e => (e.1, .str e.2)) = true ↔
      ∀ e ∈ ms, noNul e.1 = true ∧ noNul e.2 = true := by
  induction ms with
  | nil => simp [membersNoNul]
  | cons e ms ih => simp [membersNoNul, jsonNoNul, ih]

theorem noNul_latin1 (b : Bytes) : noNul (latin1 b) = true ↔ (0 : UInt8) ∉ b := by
  rw [← nul_mem_latin1]
  simp [noNul]

/-- The columns of the row that `_dead_letter` builds for an accepted write. -/
theorem failedRequest_entry_headers (w : Write) (now : Time) (n : Nat) (e : Option Text) :
    (failedRequest (entry w now) n e).headers =
      (w.headers.items.filter fun e => deadLetterHeaders.contains (lower e.1)).map
        fun e => (e.1, .str e.2) := by
  simp only [failedRequest, loadHeaders_entry, Option.getD_some, Dict.filter, Dict.mapVal,
    List.filter_map]
  rfl

theorem filter_nonempty_getD (t : Option Text) :
    ((some (t.getD [])).filter fun t => !t.isEmpty).getD [] = t.getD [] := by
  cases t with
  | none => rfl
  | some t => cases t <;> rfl

/-- PostgreSQL takes the row exactly if the write is storable; the method and the
error text never stand in the way. -/
theorem accepted_iff_storable (w : Write) (now : Time) (n : Nat) {e : Option Text}
    (hmethod : writeMethods.contains w.method = true) (he : noNul (e.getD []) = true) :
    (failedRequest (entry w now) n e).accepted = true ↔ Storable w := by
  have hm : w.method.length ≤ 8 ∧ noNul w.method = true := by
    have hin : w.method ∈ writeMethods := List.contains_iff_mem.mp hmethod
    simp only [writeMethods, List.mem_cons, List.not_mem_nil, or_false] at hin
    rcases hin with h | h | h | h <;> rw [h] <;> decide
  have hheaders : membersNoNul (failedRequest (entry w now) n e).headers = true ↔
      ∀ e ∈ w.headers.items, deadLetterHeaders.contains (lower e.1) = true →
        noNul e.1 = true ∧ noNul e.2 = true := by
    rw [failedRequest_entry_headers, membersNoNul_iff]
    simp only [List.mem_filter, and_imp]
  have hclient : (failedRequest (entry w now) n e).clientId.getD [] = w.clientId.getD [] :=
    filter_nonempty_getD w.clientId
  have hbody : noNul ((failedRequest (entry w now) n e).body.getD []) = true ↔
      (0 : UInt8) ∉ w.body := noNul_latin1 w.body
  simp only [FailedRequest.accepted, Bool.and_eq_true, decide_eq_true_eq, hheaders, hclient, hbody]
  constructor
  · rintro ⟨⟨⟨⟨⟨⟨⟨⟨-, h1⟩, h2⟩, -⟩, h3⟩, h4⟩, h5⟩, h6⟩, -⟩
    exact ⟨h1, h3, h2, h6, h5, h4⟩
  · intro h
    exact ⟨⟨⟨⟨⟨⟨⟨⟨hm.1, h.path_length⟩, h.client_length⟩, hm.2⟩, h.path_noNul⟩, h.headers_noNul⟩,
      h.body_noNul⟩, h.client_noNul⟩, he⟩

/-! ## Terminal outcomes -/

/-- Every store executes every command, and `up` comes back from the upstream. -/
def fairChoice (up : Except Exc UpstreamAnswer) : Cmd → Choice
  | .recv _ => match up with
    | .ok a => .answer a
    | .error e => .refuse e
  | _ => .ok

/-- A command of a task that nothing disturbs. -/
def unhindered (i : Thread) (up : Except Exc UpstreamAnswer) (c : Cmd) (s : World) :
    Option (Except Exc (Ans c) × World) :=
  exec i c (fairChoice up c) s

/-- How `_deliver` takes what comes back from the upstream, where it does not
raise. -/
def outcomeOf (cfg : Config) (up : Except Exc UpstreamAnswer) : Option Outcome :=
  match up.bind (boundedResponse cfg) with
  | .ok resp => some (statusOutcome resp.status)
  | .error e => (transportName e).map fun name => ⟨false, true, some name⟩

/-- The entry is ready to be handled: in the stream, not leased, and due. -/
structure Ready (s : World) (m : EntryId) (f : Fields Text) : Prop where
  present : (m, f.encode) ∈ s.stream
  unleased : s.lock m = none
  due : ∀ t, s.due m = some t → t ≤ s.now

/-- The entry is well formed and comes to a terminal failure: it is ineligible,
expired or out of budget, or its last request fails, or fails for good. -/
def Terminal (cfg : Config) (s : World) (m : EntryId) (f : Fields Text)
    (up : Except Exc UpstreamAnswer) : Prop :=
  ∃ headers service timestamp, loadHeaders f = some headers ∧
    destinationService cfg (f.url.getD []) = some service ∧
    f.timestamp.getD (some 0) = some timestamp ∧
    let attempts := (s.attempts m).getD 0 + 1
    let fit := eligible cfg f headers service (isExpired cfg s.now timestamp) &&
      decide (attempts ≤ maxAttempts cfg)
    fit = false ∨ (fit = true ∧ (∃ req, replayRequest f headers = .ok req) ∧
      ∃ o, outcomeOf cfg up = some o ∧ o.success = false ∧
        (maxAttempts cfg ≤ attempts ∨ o.retryable = false))

/-! ## What the handler makes of them -/

section Handle

variable {up : Except Exc UpstreamAnswer} {f : Fields Text}

theorem eval_await {α : Type} (c : Cmd) (k : Ans c → Prog α) (s : World) :
    (Prog.bind (await c) k).eval (unhindered i up) s =
      (unhindered i up c s).bind fun o => match o.1 with
        | .ok a => (k a).eval (unhindered i up) o.2
        | .error e => some (.error e, o.2) := by
  rw [Prog.eval_bind]
  simp only [await, Prog.issue, Prog.eval, Option.bind_assoc]
  refine congrArg _ (funext fun o => ?_)
  cases o.1 <;> rfl

/-- `_ack` of an undisturbed task. -/
theorem eval_ack (m : EntryId) (s : World) :
    ∃ s', (ack m).eval (unhindered i up) s = some (.ok (), s') ∧ s'.rows = s.rows ∧
      s'.has m = false ∧ Event.acked m ∈ s'.log := by
  refine ⟨_, rfl, rfl, ?_, List.mem_cons_self⟩
  simp [World.has]

/-- The row is refused, or it is committed and the entry acknowledged. -/
theorem eval_deadLetter_ack (hflat : headersTooDeep cfg f = false) (i : Thread)
    (up : Except Exc UpstreamAnswer) (m : EntryId) (n : Nat) (e : Option Text) (s : World) :
    if (failedRequest f n e).accepted then
      ∃ s', (Prog.bind (deadLetter cfg m f n e) fun _ => ack m).eval (unhindered i up) s =
          some (.ok (), s') ∧ s'.rows = (m, failedRequest f n e) :: s.rows ∧
        s'.has m = false ∧ Event.acked m ∈ s'.log
    else (Prog.bind (deadLetter cfg m f n e) fun _ => ack m).eval (unhindered i up) s =
      some (.error .dbError, s) := by
  split
  next h =>
    have hcommit : (Prog.bind (deadLetter cfg m f n e) fun _ => ack m).eval (unhindered i up) s =
        (ack m).eval (unhindered i up) { s with rows := (m, failedRequest f n e) :: s.rows } := by
      rw [deadLetter, hflat, if_neg Bool.false_ne_true, eval_await]
      simp [unhindered, fairChoice, exec, perform, h, noteReply]
    rw [hcommit]
    exact eval_ack m _
  next h =>
    rw [deadLetter, hflat, if_neg Bool.false_ne_true, eval_await]
    simp [unhindered, fairChoice, exec, perform, h, noteReply]

/-- A request and its answer. -/
theorem eval_exchange {α : Type} (req : HttpRequest (Dict Text Json)) (a : UpstreamAnswer)
    (k : UpstreamAnswer → Prog α) (s : World) :
    (Prog.bind (await (.send m req)) fun _ => Prog.bind (await (.recv m)) k).eval
        (unhindered i (.ok a)) s =
      (k a).eval (unhindered i (.ok a))
        ((s.record (.sent m (s.tokenOf i m) req)).record (.answered m a.status)) := rfl

/-- A request without an answer. -/
theorem eval_exchange_error {α : Type} {e : Exc} (he : (Cmd.recv m).raises e = true)
    (req : HttpRequest (Dict Text Json)) (k : UpstreamAnswer → Prog α) (s : World) :
    (Prog.bind (await (.send m req)) fun _ => Prog.bind (await (.recv m)) k).eval
        (unhindered i (.error e)) s =
      some (.error e, s.record (.sent m (s.tokenOf i m) req)) := by
  rw [eval_await]
  show (Prog.bind (await (.recv m)) k).eval (unhindered i (.error e))
    (s.record (.sent m (s.tokenOf i m) req)) = _
  rw [eval_await]
  simp [unhindered, fairChoice, exec, he, noteReply]

/-- The upstream call of an undisturbed task. -/
theorem eval_upstreamCall {headers : Dict Text Json} {req : HttpRequest (Dict Text Json)}
    {o : Outcome} (s : World) (hreq : replayRequest f headers = .ok req)
    (ho : outcomeOf cfg up = some o) :
    ∃ s', (upstreamCall cfg m f headers).eval (unhindered i up) s = some (.ok o, s') ∧
      s'.rows = s.rows := by
  unfold outcomeOf at ho
  rw [upstreamCall, Prog.eval_except, hreq]
  cases up with
  | error e =>
    have hraises : (Cmd.recv m).raises e = true := by
      cases e <;> first | rfl | cases ho
    obtain ⟨name, hname, rfl⟩ := Option.map_eq_some_iff.mp ho
    refine ⟨s.record (.sent m (s.tokenOf i m) req), ?_, rfl⟩
    change ((Prog.bind (await (.send m req)) fun _ => Prog.bind (await (.recv m)) _).eval
      (unhindered i (.error e)) s).bind _ = _
    rw [eval_exchange_error hraises]
    simp [hname]
  | ok a =>
    refine ⟨(s.record (.sent m (s.tokenOf i m) req)).record (.answered m a.status), ?_, rfl⟩
    change ((Prog.bind (await (.send m req)) fun _ => Prog.bind (await (.recv m)) _).eval
      (unhindered i (.ok a)) s).bind _ = _
    rw [eval_exchange]
    simp only [Except.bind] at ho
    cases hresp : boundedResponse cfg a with
    | ok resp =>
      rw [hresp] at ho
      cases ho
      rfl
    | error e =>
      rw [hresp] at ho
      obtain ⟨name, hname, rfl⟩ := Option.map_eq_some_iff.mp ho
      simp [Prog.ofExcept, hname]

theorem eval_replay {headers : Dict Text Json} {req : HttpRequest (Dict Text Json)}
    {o : Outcome} {n : Nat} (s : World) (hreq : replayRequest f headers = .ok req)
    (ho : outcomeOf cfg up = some o) (hfail : o.success = false)
    (hend : maxAttempts cfg ≤ n ∨ o.retryable = false) :
    ∃ s₁, (replay cfg m f headers n).eval (unhindered i up) s =
        (Prog.bind (deadLetter cfg m f n o.error) fun _ => ack m).eval (unhindered i up) s₁ ∧
      s₁.rows = s.rows := by
  let s₂ : World := { s with
    attempts := Function.update s.attempts m (some n)
    due := Function.update s.due m (some (s.now + seconds (backoffSeconds cfg n)))
    log := .wrote m (s.tokenOf i m) :: s.log }
  obtain ⟨s₁, hs₁, hrows⟩ := eval_upstreamCall (i := i) (m := m) s₂ hreq ho
  refine ⟨s₁, ?_, hrows⟩
  change (Prog.bind (upstreamCall cfg m f headers) _).eval (unhindered i up) s₂ = _
  rw [Prog.eval_bind, hs₁]
  simp [hfail, hend]

theorem digits_noNul (n : Nat) : noNul (toString n).toList = true := by
  have hdigit : ∀ c ∈ Nat.toDigits 10 n, c.isDigit = true := fun c hc =>
    Nat.isDigit_of_mem_toDigits (by decide) (by decide) hc
  have hnot : '\x00' ∉ Nat.toDigits 10 n := fun h => absurd (hdigit _ h) (by decide)
  simpa [noNul] using hnot

theorem outcomeOf_noNul {o : Outcome} (ho : outcomeOf cfg up = some o) :
    noNul (o.error.getD []) = true := by
  unfold outcomeOf at ho
  split at ho
  next resp _ =>
    cases ho
    unfold statusOutcome
    dsimp only
    split
    next => rfl
    next =>
      have hdigits := digits_noNul resp.status
      simp only [noNul, Option.getD_some, List.contains_append] at hdigits ⊢
      rw [Bool.not_or, hdigits]
      decide
  next e _ =>
    obtain ⟨name, hname, rfl⟩ := Option.map_eq_some_iff.mp ho
    cases e with
    | httpError e =>
      cases hname
      cases e <;> decide
    | bodyTooLarge | timeoutError =>
      cases hname
      decide
    | _ => cases hname

/-- Every terminal outcome comes down to a dead letter followed by `_ack`. -/
theorem eval_deliver_terminal (hflat : headersTooDeep cfg f = false) (s : World)
    (hdue : ∀ t, s.due m = some t → t ≤ s.now)
    (hterm : Terminal cfg s m f up) :
    ∃ s₁ n e, (deliver cfg m f).eval (unhindered i up) s =
        (Prog.bind (deadLetter cfg m f n e) fun _ => ack m).eval (unhindered i up) s₁ ∧
      s₁.rows = s.rows ∧ noNul (e.getD []) = true := by
  obtain ⟨headers, service, timestamp, hheaders, hservice, hstamp, hcase⟩ := hterm
  have hstart : (deliver cfg m f).eval (unhindered i up) s =
      (deliverDue cfg m f).eval (unhindered i up) s := by
    have hget : unhindered i up (.hgetDue m) s = some (.ok (s.due m), s) := rfl
    rw [deliver, Prog.bind_eq, eval_await, hget, Option.bind_some]
    cases hd : s.due m with
    | none => rfl
    | some due =>
      have hle : ¬s.now < due := Nat.not_lt.mpr (hdue due hd)
      have htime : unhindered i up .time s = some (.ok s.now, s) := rfl
      simp only [Prog.bind_eq]
      rw [eval_await, htime, Option.bind_some]
      simp only [if_neg hle]
  have hdueEval : (deliverDue cfg m f).eval (unhindered i up) s =
      (if !eligible cfg f headers service (isExpired cfg s.now timestamp) ||
          decide ((s.attempts m).getD 0 + 1 > maxAttempts cfg) then
        Prog.bind (deadLetter cfg m f ((s.attempts m).getD 0 + 1 - 1)
          (some "replay ineligible or expired")) fun _ => ack m
      else replay cfg m f headers ((s.attempts m).getD 0 + 1)).eval (unhindered i up) s := by
    have hattempts : (attemptsOf m).eval (unhindered i up) s =
        some (.ok ((s.attempts m).getD 0), s) := rfl
    have htime : unhindered i up .time s = some (.ok s.now, s) := rfl
    rw [deliverDue, Prog.bind_eq, Prog.eval_bind, hattempts, Option.bind_some]
    simp only [hflat, Bool.false_eq_true, if_false, hheaders, hservice, Prog.bind_eq]
    rw [eval_await, htime, Option.bind_some]
    simp only [hstamp]
  rw [hstart, hdueEval]
  rcases hcase with hunfit | ⟨hfit, ⟨req, hreq⟩, o, ho, hfail, hend⟩
  · have hcond : (!eligible cfg f headers service (isExpired cfg s.now timestamp) ||
        decide ((s.attempts m).getD 0 + 1 > maxAttempts cfg)) = true := by
      simpa [Bool.and_eq_false_iff, imp_iff_not_or] using hunfit
    rw [if_pos hcond]
    exact ⟨s, _, _, rfl, rfl, by decide⟩
  · obtain ⟨hel, hle⟩ := Bool.and_eq_true_iff.mp hfit
    obtain ⟨s₁, hs₁, hrows⟩ := eval_replay (i := i) (m := m) s hreq ho hfail hend
    have hcond : ¬(!eligible cfg f headers service (isExpired cfg s.now timestamp) ||
        decide ((s.attempts m).getD 0 + 1 > maxAttempts cfg)) = true := by
      simpa [hel] using of_decide_eq_true hle
    rw [if_neg hcond]
    exact ⟨s₁, _, _, hs₁, hrows, outcomeOf_noNul ho⟩

theorem eval_acquireLock (ttl : Nat) (hfree : s.lock m = none) :
    ∃ s₀, (acquireLock m ttl).eval (unhindered i up) s = some (.ok (some ⟨i, s.nextSerial⟩), s₀) ∧
      s₀.rows = s.rows ∧ s₀.now = s.now ∧ s₀.attempts = s.attempts ∧ s₀.due = s.due := by
  have htoken : unhindered i up .tokenHex s =
      some (.ok ⟨i, s.nextSerial⟩, { s with nextSerial := s.nextSerial + 1 }) := rfl
  rw [acquireLock, Prog.bind_eq, eval_await, htoken, Option.bind_some]
  simp only [Prog.bind_eq]
  rw [Prog.eval_except, eval_await]
  simp only [unhindered, fairChoice, exec, perform, hfree, Option.map_some, Option.bind_some]
  exact ⟨_, rfl, rfl, rfl, rfl, rfl⟩

theorem eval_releaseLock (i : Thread) (up : Except Exc UpstreamAnswer) (m : EntryId) (t : Token)
    (s : World) :
    ∃ s', (releaseLock m t).eval (unhindered i up) s = some (.ok (), s') ∧
      s'.rows = s.rows ∧ s'.stream = s.stream ∧ s'.log = s.log := by
  have hdel : ∃ s', unhindered i up (.getDel m t) s = some (.ok (), s') ∧
      s'.rows = s.rows ∧ s'.stream = s.stream ∧ s'.log = s.log := by
    simp only [unhindered, fairChoice, exec, perform]
    cases s.lock m with
    | none => exact ⟨_, rfl, rfl, rfl, rfl⟩
    | some l =>
      by_cases hl : l.token = t
      · simp only [hl, if_pos]
        exact ⟨_, rfl, rfl, rfl, rfl⟩
      · simp only [if_neg hl]
        exact ⟨_, rfl, rfl, rfl, rfl⟩
  obtain ⟨s', hs', h⟩ := hdel
  refine ⟨s', ?_, h⟩
  rw [releaseLock, Prog.eval_except, await, Prog.issue, Prog.eval, hs']
  rfl

/-- A terminal outcome ends in a committed row and an acknowledged entry, or in a
database error that leaves the entry where it is. -/
theorem eval_handle_terminal (hflat : headersTooDeep cfg f = false) (s : World)
    (hready : Ready s m f) (hterm : Terminal cfg s m f up) :
    ∃ n e, noNul (e.getD []) = true ∧
      if (failedRequest f n e).accepted then
        ∃ s', (handle cfg m f).eval (unhindered i up) s = some (.ok (), s') ∧
          s'.rows = (m, failedRequest f n e) :: s.rows ∧ s'.has m = false ∧
          Event.acked m ∈ s'.log
      else ∃ s', (handle cfg m f).eval (unhindered i up) s = some (.error .dbError, s') := by
  obtain ⟨s₀, hacquire, hrows₀, hnow, hattempts, hdue⟩ :=
    eval_acquireLock (i := i) cfg.settings.queueClaimIdleSeconds hready.unleased
  have hterm₀ : Terminal cfg s₀ m f up := by
    unfold Terminal
    rw [hnow, hattempts]
    exact hterm
  have hdue₀ : ∀ t, s₀.due m = some t → t ≤ s₀.now := by
    rw [hnow, hdue]
    exact hready.due
  obtain ⟨s₁, n, e, hdeliver, hrows₁, hnoNul⟩ := eval_deliver_terminal hflat s₀ hdue₀ hterm₀
  refine ⟨n, e, hnoNul, ?_⟩
  have hhandle : (handle cfg m f).eval (unhindered i up) s =
      (handleLeased cfg m f ⟨i, s.nextSerial⟩).eval (unhindered i up) s₀ := by
    rw [handle, Prog.bind_eq, Prog.eval_bind, hacquire, Option.bind_some]
  have hletter := eval_deadLetter_ack hflat i up m n e s₁
  rw [hhandle, handleLeased, Prog.eval_finally, Prog.eval_except, hdeliver]
  split at hletter
  next hacc =>
    obtain ⟨s₂, hs₂, hrows₂, hgone, hacked⟩ := hletter
    obtain ⟨s₃, hs₃, hrows₃, hstream, hlog⟩ := eval_releaseLock i up m
      ⟨i, s.nextSerial⟩ s₂
    rw [if_pos hacc, hs₂]
    simp only [Option.bind_some, hs₃]
    refine ⟨s₃, rfl, ?_, ?_, ?_⟩
    · rw [hrows₃, hrows₂, hrows₁, hrows₀]
    · rw [World.has, hstream]
      exact hgone
    · rw [hlog]
      exact hacked
  next hacc =>
    obtain ⟨s₃, hs₃, -⟩ := eval_releaseLock i up m ⟨i, s.nextSerial⟩ s₁
    rw [if_neg hacc, hletter]
    simp only [Option.bind_some, isMalformed, Bool.false_eq_true, if_false, Option.getD_none,
      Prog.eval_raise, hs₃]
    exact ⟨s₃, rfl⟩

end Handle

/-! ## Accepted writes -/

/-- Whenever the write, accepted and stored, comes to a terminal outcome and
nothing goes wrong, its row is committed and its entry acknowledged. -/
def AlwaysDeadLettered (w : Write) : Prop :=
  ∀ (cfg : Config) (s : World) (i : Thread) (m : EntryId) (now : Time)
    (up : Except Exc UpstreamAnswer),
    Ready s m (entry w now) → Terminal cfg s m (entry w now) up →
      ∃ s', (handle cfg m (entry w now)).eval (unhindered i up) s = some (.ok (), s') ∧
        (∃ n e, s'.rows = (m, failedRequest (entry w now) n e) :: s.rows) ∧
        s'.has m = false ∧ Event.acked m ∈ s'.log

theorem admits_method {w : Write} (h : admits cfg w = true) :
    writeMethods.contains w.method = true := by
  unfold admits at h
  split at h
  next => simp only [Bool.and_eq_true] at h; exact h.1.1.1
  next => cases h

theorem admits_destination {w : Write} (h : admits cfg w = true) :
    ∃ service, destinationService cfg w.url = some (some service) := by
  unfold admits at h
  split at h
  next service hs => exact ⟨service, hs⟩
  next => cases h

/-- The stores when the write, queued at time zero, has just expired. -/
def expiredWorld (cfg : Config) (w : Write) : World where
  now := seconds cfg.settings.queueMaxAgeSeconds + 1
  stream := [(1, (entry w 0).encode)]
  lastId := 1

theorem ready_expiredWorld (cfg : Config) (w : Write) :
    Ready (expiredWorld cfg w) 1 (entry w 0) :=
  ⟨List.mem_singleton_self _, rfl, by simp [expiredWorld]⟩

theorem terminal_expiredWorld {w : Write} (h : admits cfg w = true)
    (up : Except Exc UpstreamAnswer) :
    Terminal cfg (expiredWorld cfg w) 1 (entry w 0) up := by
  obtain ⟨service, hservice⟩ := admits_destination h
  refine ⟨_, _, 0, loadHeaders_entry w 0, hservice, rfl, Or.inl ?_⟩
  have hexpired : isExpired cfg (expiredWorld cfg w).now 0 = true := by
    simp [isExpired, expiredWorld]
  simp [hexpired, eligible]

/-- An accepted write can always be dead-lettered exactly if it is storable. -/
theorem accepted_dead_lettered_iff_storable {w : Write} (h : admits cfg w = true) :
    AlwaysDeadLettered w ↔ Storable w := by
  have hmethod := admits_method h
  constructor
  · intro hall
    obtain ⟨s', hs', -⟩ := hall cfg (expiredWorld cfg w) (.worker 0) 1 0 (.error .timeoutError)
      (ready_expiredWorld cfg w) (terminal_expiredWorld h _)
    obtain ⟨n, e, hnoNul, hcase⟩ := eval_handle_terminal (i := .worker 0)
      (headersTooDeep_entry cfg w 0) (expiredWorld cfg w) (ready_expiredWorld cfg w)
      (terminal_expiredWorld h (.error .timeoutError))
    split at hcase
    next hacc => exact (accepted_iff_storable w 0 n hmethod hnoNul).mp hacc
    next =>
      obtain ⟨s'', hs''⟩ := hcase
      rw [hs'] at hs''
      cases hs''
  · intro hstorable cfg' s i m now up hready hterm
    obtain ⟨n, e, hnoNul, hcase⟩ := eval_handle_terminal (i := i) (headersTooDeep_entry cfg' w now) s
      hready hterm
    rw [if_pos ((accepted_iff_storable w now n hmethod hnoNul).mpr hstorable)] at hcase
    obtain ⟨s', hs', hrows, hgone, hacked⟩ := hcase
    exact ⟨s', hs', ⟨n, e, hrows⟩, hgone, hacked⟩

/-- The write of the queue tests with a text body can always be dead-lettered. -/
theorem text_write_dead_lettered :
    admits mockConfig { mockWrite with body := [0x6f, 0x6b] } = true ∧
      AlwaysDeadLettered { mockWrite with body := [0x6f, 0x6b] } := by
  have hadmits : admits mockConfig { mockWrite with body := [0x6f, 0x6b] } = true := by
    decide +kernel
  refine ⟨hadmits, (accepted_dead_lettered_iff_storable hadmits).mpr ?_⟩
  exact ⟨by decide, by decide, by decide, by decide, by decide, by decide⟩

/-- The same write with a zero byte in its body is accepted and cannot be: once it
has expired, the database refuses its row. -/
theorem zero_byte_write_not_dead_lettered :
    ¬∀ cfg w, admits cfg w = true → AlwaysDeadLettered w := by
  intro hall
  have hadmits : admits mockConfig mockWrite = true := by decide +kernel
  obtain ⟨s', hs', -⟩ := hall mockConfig mockWrite hadmits mockConfig
    (expiredWorld mockConfig mockWrite) (.worker 0) 1 0 (.error .timeoutError)
    (ready_expiredWorld mockConfig mockWrite) (terminal_expiredWorld hadmits _)
  have hrun : (((handle mockConfig 1 (entry mockWrite 0)).eval
      (unhindered (.worker 0) (.error .timeoutError)) (expiredWorld mockConfig mockWrite)).map
      fun o => o.1.toBool) = some false := by decide +kernel
  rw [hs'] at hrun
  cases hrun

end Queue
end AdaptiveGateway
