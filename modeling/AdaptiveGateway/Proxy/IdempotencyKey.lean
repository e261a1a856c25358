/-
The idempotency key of a queued write.

`_handle_write` checks the first `Idempotency-Key` line of the request.  The dictionary that
is forwarded, stored and replayed holds the last one.  Where a request repeats the line, the
two can differ, and then it is the unchecked one that goes with the write.
-/
import AdaptiveGateway.Proxy.ListHeaders
import AdaptiveGateway.Proxy.Route
import AdaptiveGateway.Queue.Isolation

namespace AdaptiveGateway
namespace Proxy

open Codec Concurrent
open Queue (Thread EntryId Event Accounted Fields)

/-- The name of the line. -/
def keyName : Text := "idempotency-key"

/-- What `_handle_write` asks of the key. -/
def IsKey (key : Text) : Prop :=
  1 ≤ key.length ∧ key.length ≤ 128 ∧ WriteCall.isPrintableAscii key = true

/-- The headers of an entry or of a replay have a key. -/
def Keyed (headers : Dict Text Json) : Prop :=
  ∃ key, headers.get? keyName = some (.str key) ∧ IsKey key

/-- The last line of the name. -/
def Request.lastLine (r : Request) (name : Text) : Option Text :=
  (Dict.values name r.headers).getLast?

/-- The key that goes with the entry `id` of the handler `n`, whose fields are `b`: the one
that is stored, the one of the first attempt, and that of each replay. -/
structure KeysValid (s : World) (n : Nat) (id : EntryId) (b : Fields Bytes) : Prop where
  stored : ∃ f headers, b.decode = some f ∧ Queue.loadHeaders f = some headers ∧ Keyed headers
  first : ∀ req o, s.tried (.client n) = some (req, o) → Keyed (req.headers.mapVal .str)
  replayed : ∀ t req, Event.sent id t req ∈ s.queue.log → Keyed req.headers

/-! ## The forwarded key -/

/-- The names that a `Connection` line takes out. -/
def Request.nominated (r : Request) : List Text :=
  (splitOn ',' ((r.header "connection").getD [])).map fun part => lower (strip part)

theorem get?_keyName (r : Request) : (forwardHeaders r).get? keyName =
    if keyName ∈ r.nominated then none else r.lastLine keyName := by
  have hown : keyName ∉ ownHeaders := by decide
  have hlower : lower keyName = keyName := by decide
  have hhop : keyName ∉ HOP_BY_HOP := by decide
  have hvalues : Dict.values keyName
      (r.headers.filter fun e => !(HOP_BY_HOP ++ r.nominated).contains (lower e.1)) =
        if keyName ∈ r.nominated then [] else Dict.values keyName r.headers := by
    rw [Dict.values_filter (q := fun name => !(HOP_BY_HOP ++ r.nominated).contains (lower name))
      (fun _ => rfl), hlower]
    by_cases h : keyName ∈ r.nominated
    · simp [h]
    · simp [h, hhop]
  have hclean : (cleanHeaders ((r.header "connection").getD []) r.headers).get? keyName =
      if keyName ∈ r.nominated then none else r.lastLine keyName := by
    show (Dict.ofPairs (r.headers.filter fun e =>
      !(HOP_BY_HOP ++ r.nominated).contains (lower e.1))).get? keyName = _
    rw [Dict.get?_ofPairs, hvalues, Request.lastLine]
    split <;> rfl
  rw [get?_forwardHeaders, filledIn_of_not_mem (by decide), Option.none_or, if_neg hown, hclean]

theorem get?_outgoingHeaders (host : Option Text) (r : Request) :
    (outgoingHeaders host r).get? keyName = (forwardHeaders r).get? keyName := by
  cases host with
  | none => rfl
  | some host =>
    rw [outgoingHeaders, Dict.get?_set, if_neg (by decide)]

/-- The forwarded headers of a call of the proxy. -/
theorem fwdHeaders_of_proxy {cfg : Config} {net : Resolver} {inc : Incoming} {c : WriteCall}
    (h : proxy cfg net inc = .write c) :
    ∃ host, c.fwdHeaders = outgoingHeaders host c.request := by
  unfold proxy at h
  split at h
  · cases h
  split at h
  · cases h
  split at h
  · cases h
  simp only at h
  split at h
  · cases h
  · cases h
    exact ⟨_, rfl⟩

/-! ## The commands of a handler -/

/-- What a thread may ask for, as far as keys are concerned.  A handler makes the one upstream
call and adds the one entry, and that only for a write that has passed both checks. -/
def Allowed (cfg : Config) (calls : Nat → WriteCall) : Thread → Queue.Cmd ⊕ Call → Prop
  | .client n, .inl (.xadd _ f) => (calls n).eligible = true ∧
      Queue.admits cfg (calls n).toWrite = true ∧ ∃ now, f = Queue.entry (calls n).toWrite now
  | .client n, .inr req => req = (calls n).firstAttempt
  | .worker _, .inl (.xadd _ _) | .worker _, .inr _ => False
  | _, _ => True

section Commands

variable {cfg : Config} {calls : Nat → WriteCall} {i : Thread}

/-- A worker adds nothing to the stream. -/
def AddsNothing (c : Queue.Cmd) : Prop := ∀ d f, c ≠ .xadd d f

theorem round_issues : (Queue.round cfg).Issues AddsNothing := by
  have hhandle : ∀ m f, (Queue.handle cfg m f).Issues AddsNothing := fun m f =>
    Queue.handle_about.mono fun c hc d g => by
      rintro rfl
      rcases hc with h | h | h <;> cases h
  have hclaimed : ∀ e, (Queue.handleClaimed cfg e).Issues AddsNothing := fun e => by
    obtain ⟨m, f⟩ := e
    cases f with
    | none => trivial
    | some f => exact hhandle m f
  have hawait : ∀ {c : Queue.Cmd}, AddsNothing c → (Queue.await c).Issues AddsNothing :=
    Prog.Issues.issue
  have htick : (Queue.tick cfg).Issues AddsNothing := by
    refine (hawait (by simp [AddsNothing])).bind fun new => ?_
    refine (Prog.Issues.forEach (fun e => hhandle e.1 e.2) new).bind fun _ => ?_
    refine (hawait (by simp [AddsNothing])).bind fun cursor => ?_
    refine (hawait (by simp [AddsNothing])).bind fun claimed => ?_
    refine (hawait (by simp [AddsNothing])).bind fun _ => ?_
    exact Prog.Issues.forEach hclaimed claimed.2
  have hgroup : Queue.ensureGroup.Issues AddsNothing :=
    (hawait (by simp [AddsNothing])).bind fun _ => trivial
  refine (Prog.Issues.except (hgroup.bind fun _ => htick) fun e q hq => ?_).bind fun _ => trivial
  split at hq <;> cases hq
  trivial

theorem worker_issues (n : Nat) :
    (boot cfg calls (.worker n)).Issues (Allowed cfg calls (.worker n)) := by
  have hround : (Queue.round cfg).Issues fun c => Allowed cfg calls (.worker n) (.inl c) :=
    round_issues.mono fun c hc => by
      cases c with
      | xadd d f => exact absurd rfl (hc d f)
      | _ => trivial
  exact hround.lift.bind fun _ => trivial

theorem enqueueWrite_issues {n : Nat} (heligible : (calls n).eligible = true) :
    (Queue.enqueueWrite cfg (calls n).toWrite).Issues
      fun c => Allowed cfg calls (.client n) (.inl c) := by
  have hawait : ∀ {c : Queue.Cmd}, Allowed cfg calls (.client n) (.inl c) →
      (Queue.await c).Issues fun c => Allowed cfg calls (.client n) (.inl c) :=
    Prog.Issues.issue (S := fun c => Allowed cfg calls (.client n) (.inl c))
  unfold Queue.enqueueWrite
  split
  next hadmits =>
    refine (hawait (c := .time) trivial).bind fun now => ?_
    refine (hawait (c := .xadd _ _) ⟨heligible, hadmits, now, rfl⟩).bind fun result => ?_
    cases result <;> trivial
  next => trivial

theorem handler_issues (n : Nat) :
    (boot cfg calls (.client n)).Issues (Allowed cfg calls (.client n)) := by
  have hunavailable : ∀ e, (upstreamUnavailable cfg (calls n) e).Issues
      (Allowed cfg calls (.client n)) := fun e => by
    unfold upstreamUnavailable
    split
    next heligible =>
      refine Prog.Issues.bind (Prog.Issues.except
        ((enqueueWrite_issues heligible).lift.bind fun _ => trivial) fun e q hq => ?_)
        fun queued => ?_
      · split at hq <;> cases hq
        trivial
      · cases queued <;> exact Prog.Issues.ofExcept _
    next => exact Prog.Issues.ofExcept _
  have hhandle : (handleWrite cfg (calls n)).Issues (Allowed cfg calls (.client n)) := by
    refine Prog.Issues.bind (Prog.Issues.except
      ((callUpstream_issues (S := Allowed cfg calls (.client n)) rfl).bind fun _ => trivial)
      fun e q hq => ?_) fun forwarded => ?_
    · split at hq
      · cases hq
        exact (hunavailable e).bind fun _ => trivial
      · split at hq <;> cases hq
        exact (Prog.Issues.ofExcept _).bind fun _ => trivial
    · cases forwarded with
      | inl resp => exact Prog.Issues.ofExcept _
      | inr response => trivial
  exact hhandle.bind fun _ => trivial

theorem boot_issues : (boot cfg calls i).Issues (Allowed cfg calls i) := by
  cases i with
  | worker n => exact worker_issues n
  | client n => exact handler_issues n

theorem again_issues {r : Except Exc (Option Response)} {p : WriteTask (Option Response)}
    (h : again cfg calls i r = some p) : p.Issues (Allowed cfg calls i) := by
  cases i with
  | worker n =>
    cases r with
    | ok a =>
      cases h
      exact worker_issues n
    | error e => cases h
  | client n => cases h

end Commands

/-! ## Runs -/

/-- Where the entries and the first attempts come from. -/
structure Traced (cfg : Config) (calls : Nat → WriteCall) (s : World) : Prop where
  added : ∀ id b, Event.added id b ∈ s.queue.log → ∃ n now, (calls n).eligible = true ∧
    Queue.admits cfg (calls n).toWrite = true ∧ b = (Queue.entry (calls n).toWrite now).encode
  tried : ∀ n req o, s.tried (.client n) = some (req, o) → req = (calls n).firstAttempt

section Runs

variable {cfg : Config} {calls : Nat → WriteCall} {i : Thread} {s s' : World}
  {q : Pool Thread (Queue.Cmd ⊕ Call) (Sum.elim Queue.Ans Call.Ans) Exc (Option Response) World}

theorem exec_traced {c : Queue.Cmd ⊕ Call} {ch : Choice}
    {r : Except Exc (Sum.elim Queue.Ans Call.Ans c)} (hc : Allowed cfg calls i c)
    (hs : Traced cfg calls s) (h : exec i c ch s = some (r, s')) : Traced cfg calls s' := by
  cases c with
  | inl c =>
    obtain ⟨⟨o, t⟩, ho, heq⟩ := Option.map_eq_some_iff.mp h
    cases heq
    refine ⟨fun id b hb => ?_, hs.tried⟩
    obtain hl | ⟨e, he, hl⟩ := Queue.exec_log ho
    · exact hs.added id b (by rwa [← hl])
    · rw [hl] at hb
      rcases List.mem_cons.mp hb with rfl | hb
      · obtain ⟨d, f, rfl, -, rfl⟩ := he.cmd
        cases i with
        | worker n => exact hc.elim
        | client n =>
          obtain ⟨heligible, hadmits, now, rfl⟩ := hc
          exact ⟨n, now, heligible, hadmits, rfl⟩
      · exact hs.added id b hb
  | inr req =>
    obtain ⟨o, -, heq⟩ := Option.map_eq_some_iff.mp h
    cases heq
    refine ⟨hs.added, fun n req' o' ht => ?_⟩
    by_cases hi : .client n = i
    · subst hi
      have hupdate : Function.update s.tried (.client n) (some (req, r)) (.client n) =
          some (req, r) := Function.update_self ..
      have hreq : some (req, r) = some (req', o') := hupdate.symm.trans ht
      cases hreq
      exact hc
    · exact hs.tried n req' o' ((Function.update_of_ne hi ..).symm.trans ht)

theorem reach_traced
    (hq : (gateway cfg calls).Reach Guard.any ((gateway cfg calls).start {}) q) :
    Traced cfg calls q.state := by
  refine hq.issues_invariant (S := Allowed cfg calls) (fun _ => boot_issues)
    (fun _ _ _ h => again_issues h) (fun _ _ _ _ _ _ hc hs he => exec_traced hc hs he)
    (fun _ _ hs => ⟨hs.added, hs.tried⟩) ?_ ⟨fun _ _ h => ?_, fun _ _ _ h => ?_⟩
  · rintro d s s' hs ⟨⟩
    exact ⟨hs.added, hs.tried⟩
  · cases h
  · cases h

theorem key_of_admits {w : Queue.Write} (h : Queue.admits cfg w = true) :
    w.headers.get? keyName ≠ none := by
  intro hnone
  unfold Queue.admits at h
  split at h
  · simp only [Bool.and_eq_true] at h
    have hkey : (!((w.headers.get? keyName).getD []).isEmpty) = true := h.1.2
    rw [hnone] at hkey
    cases hkey
  · cases h

/-- A write that has been queued carries the last line of its request. -/
theorem key_of_added (hs : Traced cfg calls s) {net : Resolver} {inc : Incoming} {n : Nat}
    (hn : proxy cfg net inc = .write (calls n)) {id : EntryId} {now : Time}
    (hadded : Event.added id (Queue.entry (calls n).toWrite now).encode ∈ s.queue.log) :
    (calls n).fwdHeaders.get? keyName = (calls n).request.lastLine keyName := by
  obtain ⟨m, now', -, hadmits, hsame⟩ := hs.added id _ hadded
  -- The checks were made of a write with the same entry, and so with the same headers.
  have hentry : Queue.entry (calls n).toWrite now = Queue.entry (calls m).toWrite now' := by
    have hdecoded := congrArg Fields.decode hsame
    rw [Fields.decode_encode, Fields.decode_encode] at hdecoded
    exact Option.some.inj hdecoded
  have hheaders : (calls n).fwdHeaders.mapVal Json.str = (calls m).fwdHeaders.mapVal Json.str := by
    have hloaded := congrArg Queue.loadHeaders hentry
    rw [Queue.loadHeaders_entry, Queue.loadHeaders_entry] at hloaded
    exact Option.some.inj hloaded
  have hkeys : (calls n).fwdHeaders.get? keyName = (calls m).fwdHeaders.get? keyName := by
    have hget := congrArg (fun d => Dict.get? d keyName) hheaders
    simp only [Dict.get?_mapVal] at hget
    exact Option.map_injective (fun _ _ h => Json.str.inj h) hget
  have hsome : (calls m).fwdHeaders.get? keyName ≠ none := key_of_admits hadmits
  obtain ⟨host, hhost⟩ := fwdHeaders_of_proxy hn
  have hforwarded := (congrArg (fun d => Dict.get? d keyName) hhost).trans
    (get?_outgoingHeaders host (calls n).request)
  rw [get?_keyName] at hforwarded
  split at hforwarded
  · exact absurd (hkeys.symm.trans hforwarded) hsome
  · exact hforwarded

theorem keyed_mapVal {headers : Dict Text Text} :
    Keyed (headers.mapVal .str) ↔ ∃ key, headers.get? keyName = some key ∧ IsKey key := by
  simp [Keyed, Dict.get?_mapVal]

theorem keysValid_iff (hs : Traced cfg calls s) (haccounted : Accounted s.queue) {net : Resolver}
    {inc : Incoming} {n : Nat} (hn : proxy cfg net inc = .write (calls n)) {id : EntryId}
    {now : Time}
    (hadded : Event.added id (Queue.entry (calls n).toWrite now).encode ∈ s.queue.log) :
    KeysValid s n id (Queue.entry (calls n).toWrite now).encode ↔
      ∃ key, (calls n).request.lastLine keyName = some key ∧ IsKey key := by
  have hkeyed : Keyed ((calls n).fwdHeaders.mapVal .str) ↔
      ∃ key, (calls n).request.lastLine keyName = some key ∧ IsKey key := by
    rw [keyed_mapVal, key_of_added hs hn hadded]
  have hloaded := Queue.loadHeaders_entry (calls n).toWrite now
  rw [← hkeyed]
  constructor
  · intro h
    obtain ⟨f, headers, hf, hheaders, hkey⟩ := h.stored
    rw [Fields.decode_encode] at hf
    cases hf
    rw [hloaded] at hheaders
    cases hheaders
    exact hkey
  · intro h
    refine ⟨⟨_, _, Fields.decode_encode _, hloaded, h⟩, fun req o ht => ?_, fun t req hsent => ?_⟩
    · rw [hs.tried n req o ht]
      exact h
    · rw [sent_eq_firstAttempt haccounted hadded hsent]
      exact h

/-- Each entry is that of a write whose first line was found fit.  The key that goes with it
is fit exactly if the last line is. -/
theorem queued_key_valid_iff (cfg : Config) (calls : Nat → WriteCall)
    (hcalls : ∀ n, ∃ net inc, proxy cfg net inc = .write (calls n))
    (q : Pool Thread (Queue.Cmd ⊕ Call) (Sum.elim Queue.Ans Call.Ans) Exc (Option Response) World)
    (hq : (gateway cfg calls).Reach Guard.any ((gateway cfg calls).start {}) q) (id : EntryId)
    (b : Fields Bytes) (hadded : Event.added id b ∈ q.state.queue.log) :
    (∃ n now, (calls n).eligible = true ∧ b = (Queue.entry (calls n).toWrite now).encode) ∧
      ∀ n now, b = (Queue.entry (calls n).toWrite now).encode →
        (KeysValid q.state n id b ↔
          ∃ key, (calls n).request.lastLine keyName = some key ∧ IsKey key) := by
  have htraced := reach_traced hq
  obtain ⟨n, now, heligible, -, hb⟩ := htraced.added id b hadded
  refine ⟨⟨n, now, heligible, hb⟩, ?_⟩
  rintro m now' rfl
  obtain ⟨net, inc, hm⟩ := hcalls m
  exact keysValid_iff htraced (register_sound hq).1 hm hadded

end Runs

/-! ## Requests with two lines -/

/-- A write to the mock service with the key `unique`, and then another. -/
def repeated (last : Text) : Incoming where
  method := "PATCH"
  service := "mock"
  path := "items"
  headers := [(utf8 "host", utf8 "gateway"), (utf8 "idempotency-key", utf8 "unique"),
    (utf8 "idempotency-key", utf8 last)]
  clientIp := "127.0.0.1"

/-- Upstreams are listed, so nothing is resolved. -/
def unresolved : Resolver := ⟨fun _ => none, fun _ => none⟩

def Route.write? : Route → Option WriteCall
  | .write c => some c
  | _ => none

/-- The call of the handler. -/
def routed (last : Text) : WriteCall :=
  ((proxy mockConfig unresolved (repeated last)).write?).getD mockCall

theorem proxy_routed (last : Text)
    (h : ((proxy mockConfig unresolved (repeated last)).write?).isSome = true) :
    proxy mockConfig unresolved (repeated last) = .write (routed last) := by
  rw [routed]
  cases hr : proxy mockConfig unresolved (repeated last) with
  | write c => rfl
  | _ =>
    rw [hr] at h
    cases h

def addedIds (log : List Event) : List EntryId :=
  log.filterMap fun e => match e with
    | .added m _ => some m
    | _ => none

/-- The upstream call times out, and the write is queued. -/
def timedOut : List (Label Thread Choice Time) :=
  .act (.client 0) (.refuse (.httpError .readTimeout)) :: Queue.steps (.client 0) 2

theorem exists_queued (calls : Nat → WriteCall)
    (h : (((gateway mockConfig calls).run ((gateway mockConfig calls).start {}) timedOut).map
      fun q => addedIds q.state.queue.log) = some [1]) :
    ∃ q b, (gateway mockConfig calls).Reach Guard.any ((gateway mockConfig calls).start {}) q ∧
      Event.added 1 b ∈ q.state.queue.log := by
  obtain ⟨q, hq, hids⟩ := Option.map_eq_some_iff.mp h
  have hmem : 1 ∈ addedIds q.state.queue.log := by rw [hids]; exact List.mem_singleton_self 1
  obtain ⟨e, he, hid⟩ := List.mem_filterMap.mp hmem
  cases e with
  | added m b =>
    cases hid
    exact ⟨q, b, Machine.reach_of_run hq, he⟩
  | _ => cases hid

/-- With a second line that is fit as well, so is the key that is stored and sent. -/
theorem queued_key_valid_iff_mock :
    ∃ q b, (gateway mockConfig fun _ => routed "second").Reach Guard.any
        ((gateway mockConfig fun _ => routed "second").start {}) q ∧
      Event.added 1 b ∈ q.state.queue.log ∧ ∃ n, KeysValid q.state n 1 b := by
  have hrouted := proxy_routed "second" (by decide +kernel)
  obtain ⟨q, b, hq, hadded⟩ := exists_queued (fun _ => routed "second") (by decide +kernel)
  obtain ⟨⟨n, now, -, hb⟩, hiff⟩ := queued_key_valid_iff mockConfig (fun _ => routed "second")
    (fun _ => ⟨unresolved, _, hrouted⟩) q hq 1 b hadded
  exact ⟨q, b, hq, hadded, n, (hiff n now hb).mpr ⟨"second", by decide +kernel,
    by decide, by decide, by decide⟩⟩

/-- The second line is one character too long.  The write is queued with it all the same. -/
theorem second_key_unchecked :
    let calls : Nat → WriteCall := fun _ => routed (List.replicate 129 'a')
    proxy mockConfig unresolved (repeated (List.replicate 129 'a')) = .write (calls 0) ∧
      ∃ q b, (gateway mockConfig calls).Reach Guard.any ((gateway mockConfig calls).start {}) q ∧
        Event.added 1 b ∈ q.state.queue.log ∧ ∀ n, ¬KeysValid q.state n 1 b := by
  intro calls
  have hrouted := proxy_routed (List.replicate 129 'a') (by decide +kernel)
  obtain ⟨q, b, hq, hadded⟩ := exists_queued calls (by decide +kernel)
  obtain ⟨m, now, -, -, rfl⟩ := (reach_traced hq).added 1 b hadded
  refine ⟨hrouted, q, _, hq, hadded, fun n hkeys => ?_⟩
  have hlast : (calls n).request.lastLine keyName = some (List.replicate 129 'a') := by
    decide +kernel
  obtain ⟨key, hkey, hfit⟩ :=
    (keysValid_iff (reach_traced hq) (register_sound hq).1 (n := n) hrouted hadded).mp hkeys
  obtain rfl : key = List.replicate 129 'a' := Option.some.inj (hkey.symm.trans hlast)
  have hlen := hfit.2.1
  rw [List.length_replicate] at hlen
  omega

end Proxy
end AdaptiveGateway
