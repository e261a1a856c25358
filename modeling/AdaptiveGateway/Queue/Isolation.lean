/-
One entry's exception and the rest of its batch.

`_handle` catches four classes of exceptions, `acquire_lock` and `release_lock`
catch Redis errors, and the upstream call catches transport errors.  Everything
else leaves `_tick`, also the `RecursionError` of headers that are nested too deep,
and the entries of the batch behind the failing one are not looked at.

The worker is read against an arbitrary environment, which answers each command with
any value or with any exception that the command can raise.
-/
import AdaptiveGateway.Queue.SyncWorker

namespace AdaptiveGateway
namespace Queue

open Codec Concurrent

abbrev Oracle := Prog.Oracle Cmd Ans Exc

abbrev Exchange := Prog.Exchange Cmd Ans Exc

variable {ρ : Oracle} {h : List Exchange} {m : EntryId} {cfg : Config} {f : Fields Text}

/-! ## Environments -/

/-- The environment raises what a command can raise, and a batch names each entry
once.  A reply can also turn out not to be UTF-8. -/
structure Lawful (ρ : Oracle) : Prop where
  raises : ∀ h c e, ρ h c = .error e → c.raises e = true ∨
    e = .unicodeError ∧ ((∃ n, c = .xreadgroup n) ∨ ∃ idle start n, c = .xautoclaim idle start n)
  new : ∀ h n es, ρ h (.xreadgroup n) = .ok es → (es.map Prod.fst).Nodup
  claimed : ∀ h idle start n c, ρ h (.xautoclaim idle start n) = .ok c → (c.2.map Prod.fst).Nodup

/-- The entry whose keys a command works on. -/
def Cmd.entry? : Cmd → Option EntryId
  | .setNx m _ _ | .getDel m _ | .hgetDue m | .hgetAttempts m | .hsetAttempts m _ | .hsetDue m _
  | .xack m | .xdel m | .hdelAttempts m | .hdelDue m | .commit m _ | .send m _ | .recv m => some m
  | _ => none

/-- No handler of the worker catches this exception of this command. -/
def uncaught : Cmd → Exc → Bool
  | .setNx _ _ _, e | .getDel _ _, e => e != .redisError
  | .send _ _, e | .recv _, e => (transportName e).isNone && !isMalformed e
  | _, _ => true

/-- The exchange ends the loop over the batch, if it is about the entry with the fields `f`.
The headers are read right after the attempt count. -/
def Escapes (cfg : Config) (f : Fields Text) (x : Exchange) : Prop :=
  (∃ e, x.answer = .error e ∧ uncaught x.cmd e = true) ∨
    headersTooDeep cfg f = true ∧ ∃ m, x.cmd = .hgetAttempts m

/-- The lease of the entry is asked for, which is how `_handle` begins. -/
def Attempts (m : EntryId) (x : Exchange) : Prop := ∃ t n, x.cmd = .setNx m t n

/-- The commands of the handling of one entry. -/
def About (m : EntryId) (c : Cmd) : Prop := c.entry? = some m ∨ c = .time ∨ c = .tokenHex

/-! ## The commands of `_handle` -/

theorem about_seq {α : Type} {c : Cmd} {k : Ans c → Prog α} (hc : About m c)
    (hk : ∀ a, (k a).Issues (About m)) : (Prog.bind (await c) k).Issues (About m) :=
  Prog.Issues.bind (Prog.Issues.issue hc) hk

theorem ack_about : (ack m).Issues (About m) := by
  refine about_seq (Or.inl rfl) fun _ => ?_
  refine about_seq (Or.inl rfl) fun _ => ?_
  refine about_seq (Or.inl rfl) fun _ => ?_
  exact Prog.Issues.issue (S := About m) (Or.inl rfl)

theorem deadLetter_ack_about (n : Nat) (e : Option Text) :
    (Prog.bind (deadLetter cfg m f n e) fun _ => ack m).Issues (About m) := by
  rw [deadLetter]
  split
  next => trivial
  next => exact about_seq (Or.inl rfl) fun _ => ack_about

theorem upstreamCall_about (headers : Dict Text Json) :
    (upstreamCall cfg m f headers).Issues (About m) := by
  refine Prog.Issues.except ?_ fun e q hq => ?_
  · cases replayRequest f headers with
    | error e => trivial
    | ok req =>
      change (Prog.bind (await (.send m req)) _).Issues (About m)
      refine about_seq (Or.inl rfl) fun _ => ?_
      refine about_seq (Or.inl rfl) fun a => ?_
      cases boundedResponse cfg a <;> trivial
  · obtain ⟨name, -, rfl⟩ := Option.map_eq_some_iff.mp hq
    trivial

theorem replay_about (headers : Dict Text Json) (n : Nat) :
    (replay cfg m f headers n).Issues (About m) := by
  refine about_seq (Or.inl rfl) fun _ => ?_
  refine about_seq (Or.inr (Or.inl rfl)) fun _ => ?_
  refine about_seq (Or.inl rfl) fun _ => ?_
  refine (upstreamCall_about headers).bind fun o => ?_
  split
  next => exact ack_about
  next =>
    split
    next => exact deadLetter_ack_about _ _
    next => trivial

theorem attemptsOf_about : (attemptsOf m).Issues (About m) :=
  about_seq (Or.inl rfl) fun _ => trivial

theorem deliverDue_about : (deliverDue cfg m f).Issues (About m) := by
  refine attemptsOf_about.bind fun n => ?_
  dsimp only
  split
  next => trivial
  next =>
    split
    next =>
      refine about_seq (Or.inr (Or.inl rfl)) fun now => ?_
      split
      next => trivial
      next =>
        split
        next => exact deadLetter_ack_about _ _
        next => exact replay_about _ _
    next => trivial

theorem deliver_about : (deliver cfg m f).Issues (About m) := by
  refine about_seq (Or.inl rfl) fun due => ?_
  cases due with
  | none => exact deliverDue_about
  | some due =>
    refine about_seq (Or.inr (Or.inl rfl)) fun now => ?_
    split
    next => trivial
    next => exact deliverDue_about

theorem handle_about : (handle cfg m f).Issues (About m) := by
  have hacquire : (acquireLock m cfg.settings.queueClaimIdleSeconds).Issues (About m) := by
    refine about_seq (Or.inr (Or.inr rfl)) fun token => ?_
    refine Prog.Issues.except (about_seq (Or.inl rfl) fun _ => trivial) fun e q hq => ?_
    split at hq <;> cases hq
    trivial
  have hrelease : ∀ t, (releaseLock m t).Issues (About m) := by
    intro t
    refine Prog.Issues.except (Prog.Issues.issue (S := About m) (Or.inl rfl)) fun e q hq => ?_
    split at hq <;> cases hq
    trivial
  refine hacquire.bind fun lease => ?_
  cases lease with
  | none => trivial
  | some t =>
    refine Prog.Issues.finally_ (deliver_about.except fun e q hq => ?_) (hrelease t)
    split at hq <;> cases hq
    exact attemptsOf_about.bind fun _ => deadLetter_ack_about _ _

/-! ## Which exceptions come out of `_handle` -/

/-- `_handle` answers these with a dead letter. -/
def Malformed (e : Exc) : Prop := isMalformed e = true

/-- A command outside the lock helpers, the upstream call and the fetching, and not the one
before the reading of the headers. -/
def Unguarded : Cmd → Prop
  | .setNx _ _ _ | .getDel _ _ | .send _ _ | .recv _ | .xreadgroup _ | .xautoclaim _ _ _
  | .hgetAttempts _ => False
  | _ => True

theorem Unguarded.uncaught {c : Cmd} (hc : Unguarded c) (e : Exc) : uncaught c e = true := by
  cases c <;> first | rfl | exact hc.elim

theorem not_malformed_of_raises {c : Cmd} (hc : Unguarded c ∨ ∃ m, c = .hgetAttempts m) {e : Exc}
    (he : c.raises e = true) : ¬Malformed e := by
  have hkind : e = .redisError ∨ e = .dbError ∨ e = .cancelled := by
    rcases hc with hc | ⟨m, rfl⟩
    · cases c <;> first
        | exact hc.elim
        | (simp [Cmd.raises] at he <;> tauto)
    · simp [Cmd.raises] at he
      tauto
  rcases hkind with rfl | rfl | rfl <;> exact Bool.false_ne_true

/-- Nothing escapes from a command that is answered, other than the reading of the count. -/
theorem not_escapes_ok {c : Cmd} {a : Ans c} (hc : ∀ m, c ≠ .hgetAttempts m) :
    ¬Escapes cfg f ⟨c, .ok a⟩ := by
  rintro (⟨e, he, -⟩ | ⟨-, m, hm⟩)
  · cases he
  · exact hc m hm

/-- A guarded command, where `K` are the exceptions its guard catches. -/
theorem surfaces_guarded {c : Cmd} {K : Exc → Prop} (hread : ∀ m, c ≠ .hgetAttempts m)
    (hc : ∀ e, uncaught c e = true ↔ ¬K e) :
    Prog.Surfaces (Escapes cfg f) K ρ h (await c) := by
  refine Prog.Surfaces.issue (fun a ha => ?_) fun e he => ?_
  · rw [ha]
    exact not_escapes_ok hread
  · constructor
    · rintro (⟨e', he', hu⟩ | ⟨-, m, hm⟩)
      · rw [he] at he'
        cases he'
        exact (hc e).mp hu
      · exact absurd hm (hread m)
    · exact fun hk => Or.inl ⟨e, he, (hc e).mpr hk⟩

/-- The upstream call lets out what it does not take for a transport error. -/
theorem surfaces_upstreamCall (headers : Dict Text Json) :
    Prog.Surfaces (Escapes cfg f) Malformed ρ h (upstreamCall cfg m f headers) := by
  let caught : Exc → Prop := fun e => (transportName e).isSome = true ∨ Malformed e
  have hguard : ∀ e, ((transportName e).isNone && !isMalformed e) = true ↔ ¬caught e := by
    intro e
    simp [caught, Malformed]
  have hbody : Prog.Surfaces (Escapes cfg f) caught ρ h (do
      let req ← Prog.ofExcept (replayRequest f headers)
      await (.send m req)
      let answer ← await (.recv m)
      let resp ← Prog.ofExcept (boundedResponse cfg answer)
      return statusOutcome resp.status) := by
    cases hreq : replayRequest f headers with
    | error e =>
      refine Prog.Surfaces.raise (Or.inr ?_)
      unfold replayRequest at hreq
      split at hreq
      next => split at hreq <;> cases hreq; rfl
      next => cases hreq; rfl
    | ok req =>
      change Prog.Surfaces (Escapes cfg f) caught ρ h (Prog.bind (await (.send m req)) _)
      refine (surfaces_guarded (c := .send m req) (by simp) hguard).bind fun _ => ?_
      refine (surfaces_guarded (c := .recv m) (by simp) hguard).bind fun a => ?_
      cases hresp : boundedResponse cfg a with
      | ok resp => exact Prog.Surfaces.ret _
      | error e =>
        refine Prog.Surfaces.raise ?_
        rcases boundedResponse_error hresp with rfl | rfl
        · exact Or.inl rfl
        · exact Or.inr rfl
  refine hbody.except (fun e he => ?_) fun e he => ?_
  · have hnone : transportName e = none := by
      simpa using (not_or.mp he).1
    exact ⟨by simp [hnone], (not_or.mp he).2⟩
  · cases hn : transportName e with
    | some name => exact Prog.Surfaces.ret _
    | none =>
      rcases he with he | he
      · rw [hn] at he
        cases he
      · exact Prog.Surfaces.raise he

theorem play_attemptsOf (ρ : Oracle) (h : List Exchange) (m : EntryId) :
    ⟨.hgetAttempts m, ρ h (.hgetAttempts m)⟩ ∈ ((attemptsOf m).play ρ h).1 ∧
      ∀ e, ((attemptsOf m).play ρ h).2 = .error e → ρ h (.hgetAttempts m) = .error e := by
  rw [attemptsOf, Prog.bind_eq, Prog.play_bind, await, Prog.play_issue]
  cases hr : ρ h (.hgetAttempts m) with
  | ok raw => exact ⟨List.mem_cons_self, fun e he => by cases he⟩
  | error e => exact ⟨List.mem_cons_self, fun e' he => by simpa using he⟩

section Surface

variable {K : Exc → Prop} (hρ : Lawful ρ)
include hρ

/-- Each exception of an unguarded command gets through. -/
theorem Lawful.unguarded {c : Cmd} (hc : Unguarded c) (hK : ∀ e, K e → Malformed e) :
    Prog.Surfaces (Escapes cfg f) K ρ h (await c) := by
  refine Prog.Surfaces.issue (fun a ha => ?_) fun e he => ?_
  · rw [ha]
    refine not_escapes_ok fun m hm => ?_
    rw [hm] at hc
    exact hc
  · have hnot : ¬K e := by
      rcases hρ.raises h c e he with hr | ⟨-, ⟨n, rfl⟩ | ⟨idle, start, n, rfl⟩⟩
      · exact fun hk => not_malformed_of_raises (Or.inl hc) hr (hK e hk)
      · exact hc.elim
      · exact hc.elim
    exact ⟨fun _ => hnot, fun _ => Or.inl ⟨e, he, hc.uncaught e⟩⟩

theorem Lawful.seq {α : Type} {c : Cmd} {k : Ans c → Prog α} (hc : Unguarded c)
    (hK : ∀ e, K e → Malformed e)
    (hk : ∀ a h, Prog.Surfaces (Escapes cfg f) K ρ h (k a)) :
    Prog.Surfaces (Escapes cfg f) K ρ h (Prog.bind (await c) k) :=
  (hρ.unguarded hc hK).bind fun a => hk a _

/-- After the count comes the reading of the headers, which raises if they are nested too
deep. -/
theorem Lawful.attemptsThen {α : Type} {k : Nat → Prog α} (hK : ∀ e, K e → Malformed e)
    (hdeep : headersTooDeep cfg f = true → ∀ n, k n = .raise .recursionError)
    (hflat : headersTooDeep cfg f = false → ∀ n h, Prog.Surfaces (Escapes cfg f) K ρ h (k n)) :
    Prog.Surfaces (Escapes cfg f) K ρ h (Prog.bind (attemptsOf m) k) := by
  have hnot : ∀ e, ρ h (.hgetAttempts m) = .error e → ¬K e := by
    intro e he hk
    rcases hρ.raises h _ e he with hr | ⟨-, ⟨n, hn⟩ | ⟨idle, start, n, hn⟩⟩
    · exact not_malformed_of_raises (Or.inr ⟨m, rfl⟩) hr (hK e hk)
    · cases hn
    · cases hn
  cases hheaders : headersTooDeep cfg f with
  | false =>
    have hcount : Prog.Surfaces (Escapes cfg f) K ρ h (Queue.attemptsOf m) := by
      refine (Prog.Surfaces.issue (fun a ha => ?_) fun e he => ?_).bind fun _ => Prog.Surfaces.ret _
      · rw [ha]
        rintro (⟨e, he, -⟩ | ⟨hdeep', -⟩)
        · cases he
        · rw [hheaders] at hdeep'
          cases hdeep'
      · exact iff_of_true (Or.inl ⟨e, he, rfl⟩) (hnot e he)
    exact hcount.bind fun n => hflat hheaders n _
  | true =>
    obtain ⟨hasked, hraised⟩ := play_attemptsOf ρ h m
    exact Prog.Surfaces.bind_raise ⟨_, hasked, Or.inr ⟨hheaders, m, rfl⟩⟩
      (fun e he => hnot e (hraised e he)) (hdeep hheaders) fun hk => Bool.false_ne_true (hK _ hk)

theorem Lawful.ack (hK : ∀ e, K e → Malformed e) :
    Prog.Surfaces (Escapes cfg f) K ρ h (ack m) := by
  refine hρ.seq trivial hK fun _ h => ?_
  refine hρ.seq trivial hK fun _ h => ?_
  refine hρ.seq trivial hK fun _ h => ?_
  exact hρ.unguarded trivial hK

theorem Lawful.deadLetter_ack (hflat : headersTooDeep cfg f = false)
    (hK : ∀ e, K e → Malformed e) (n : Nat) (e : Option Text) :
    Prog.Surfaces (Escapes cfg f) K ρ h
      (Prog.bind (deadLetter cfg m f n e) fun _ => Queue.ack m) := by
  rw [deadLetter, hflat, if_neg Bool.false_ne_true]
  exact hρ.seq trivial hK fun _ _ => hρ.ack hK

theorem Lawful.replay (hflat : headersTooDeep cfg f = false) (headers : Dict Text Json)
    (n : Nat) : Prog.Surfaces (Escapes cfg f) Malformed ρ h (replay cfg m f headers n) := by
  refine hρ.seq trivial (fun _ h => h) fun _ h => ?_
  refine hρ.seq trivial (fun _ h => h) fun _ h => ?_
  refine hρ.seq trivial (fun _ h => h) fun _ h => ?_
  refine (surfaces_upstreamCall headers).bind fun o => ?_
  split
  next => exact hρ.ack fun _ h => h
  next =>
    split
    next => exact hρ.deadLetter_ack hflat (fun _ h => h) _ _
    next => exact Prog.Surfaces.ret _

theorem Lawful.deliverDue :
    Prog.Surfaces (Escapes cfg f) Malformed ρ h (deliverDue cfg m f) := by
  refine hρ.attemptsThen (fun _ h => h) (fun hdeep n => if_pos hdeep) fun hflat n h => ?_
  simp only [hflat, Bool.false_eq_true, if_false]
  split
  next =>
    refine hρ.seq trivial (fun _ h => h) fun now h => ?_
    split
    next => exact Prog.Surfaces.raise rfl
    next =>
      split
      next => exact hρ.deadLetter_ack hflat (fun _ h => h) _ _
      next => exact hρ.replay hflat _ _
  next => exact Prog.Surfaces.raise rfl

theorem Lawful.bury (hK : ∀ e, K e → Malformed e) :
    Prog.Surfaces (Escapes cfg f) K ρ h (bury cfg m f) := by
  refine hρ.attemptsThen hK (fun hdeep n => ?_) fun hflat n h => hρ.deadLetter_ack hflat hK _ _
  rw [deadLetter, if_pos hdeep]
  rfl

theorem Lawful.deliver : Prog.Surfaces (Escapes cfg f) Malformed ρ h (deliver cfg m f) := by
  refine hρ.seq trivial (fun _ h => h) fun due h => ?_
  cases due with
  | none => exact hρ.deliverDue
  | some due =>
    refine hρ.seq trivial (fun _ h => h) fun now h => ?_
    split
    next => exact Prog.Surfaces.ret _
    next => exact hρ.deliverDue

/-- `_handle` raises exactly if some exchange of it lets an exception escape. -/
theorem Lawful.handle :
    Prog.Surfaces (Escapes cfg f) (fun _ => False) ρ h (handle cfg m f) := by
  have hno : ∀ e : Exc, False → Malformed e := fun _ h => h.elim
  have hredis : ∀ e, (e != Exc.redisError) = true ↔ ¬e = .redisError := by simp
  have hlock : ∀ {α : Type} {p : Prog α} {a : α} {h : List Exchange},
      Prog.Surfaces (Escapes cfg f) (fun e => e = .redisError) ρ h p →
      Prog.Surfaces (Escapes cfg f) (fun _ => False) ρ h
        (Prog.except p fun e => if e = .redisError then some (.ret a) else none) := by
    intro α p a h hp
    refine hp.except (fun e he => ⟨if_neg he, fun h => h⟩) fun e he => ?_
    rw [if_pos he]
    exact Prog.Surfaces.ret a
  have hacquire : Prog.Surfaces (Escapes cfg f) (fun _ => False) ρ h
      (acquireLock m cfg.settings.queueClaimIdleSeconds) := by
    refine hρ.seq trivial hno fun token h => hlock ?_
    exact (surfaces_guarded (c := .setNx m token _) (by simp) hredis).bind fun _ => Prog.Surfaces.ret _
  refine hacquire.bind fun lease => ?_
  cases lease with
  | none => exact Prog.Surfaces.ret _
  | some t =>
    refine Prog.Surfaces.finally_ (hρ.deliver.except (fun e he => ?_) fun e he => ?_)
      (hlock (surfaces_guarded (c := .getDel m t) (by simp) hredis))
    · have hfalse : isMalformed e = false := by simpa [Malformed] using he
      exact ⟨by simp [hfalse], fun h => h⟩
    · rw [if_pos (show isMalformed e = true from he)]
      exact hρ.bury hno

end Surface

/-! ## Batches -/

/-- The loop of `_tick` over a batch. -/
def handleAll (cfg : Config) (es : List (EntryId × Fields Text)) : Prog Unit :=
  Prog.forEach (fun e => handle cfg e.1 e.2) es

theorem Attempts.entry {x : Exchange} (h : Attempts m x) : x.cmd.entry? = some m := by
  obtain ⟨t, n, hc⟩ := h
  rw [hc]
  rfl

section Head

variable {e : EntryId × Fields Text} {es ds : List (EntryId × Fields Text)} {u : Unit}
variable (hρ : Lawful ρ) (hnot : e.1 ∉ es.map Prod.fst)
include hnot

include hρ

end Head

/-- The claimed entries that still have their fields. -/
def present (es : List (EntryId × Option (Fields Text))) : List (EntryId × Fields Text) :=
  es.filterMap fun e => e.2.map fun f => (e.1, f)

theorem forEach_handleClaimed (es : List (EntryId × Option (Fields Text))) :
    Prog.forEach (handleClaimed cfg) es = handleAll cfg (present es) := by
  induction es with
  | nil => rfl
  | cons e es ih =>
    obtain ⟨m, fields⟩ := e
    rw [Prog.forEach, ih]
    cases fields <;> rfl

theorem present_nodup {es : List (EntryId × Option (Fields Text))}
    (h : (es.map Prod.fst).Nodup) : ((present es).map Prod.fst).Nodup := by
  refine h.sublist ?_
  induction es with
  | nil => exact List.Sublist.slnil
  | cons e es ih =>
    obtain ⟨m, fields⟩ := e
    have hes := ih (List.nodup_cons.mp h).2
    cases fields with
    | none => exact hes.cons m
    | some f => exact hes.cons_cons m

/-- The tick has talked to its environment as `pre` says and now holds the batch
`es`, new or claimed. -/
inductive Fetched (ρ : Oracle) (cfg : Config) :
    (pre : List Exchange) → (es : List (EntryId × Fields Text)) → Prop where
  | new {es : List (EntryId × Fields Text)} (hread : ρ [] (.xreadgroup 16) = .ok es) :
      Fetched ρ cfg [⟨.xreadgroup 16, .ok es⟩] es
  | claimed {es : List (EntryId × Fields Text)} {cursor : EntryId}
      {c : EntryId × List (EntryId × Option (Fields Text))} {pre : List Exchange}
      (hread : ρ [] (.xreadgroup 16) = .ok es)
      (hpre : pre = ⟨.xreadgroup 16, .ok es⟩ ::
        ((handleAll cfg es).play ρ [⟨.xreadgroup 16, .ok es⟩]).1)
      (hdone : ((handleAll cfg es).play ρ [⟨.xreadgroup 16, .ok es⟩]).2 = .ok ())
      (hcursor : ρ pre .cursor = .ok cursor)
      (hclaim : ρ (pre ++ [⟨.cursor, .ok cursor⟩])
        (.xautoclaim (seconds cfg.settings.queueClaimIdleSeconds) cursor 64) = .ok c)
      (hset : ρ (pre ++ [⟨.cursor, .ok cursor⟩,
          ⟨.xautoclaim (seconds cfg.settings.queueClaimIdleSeconds) cursor 64, .ok c⟩])
        (.setCursor c.1) = .ok ()) :
      Fetched ρ cfg (pre ++ [⟨.cursor, .ok cursor⟩,
        ⟨.xautoclaim (seconds cfg.settings.queueClaimIdleSeconds) cursor 64, .ok c⟩,
        ⟨.setCursor c.1, .ok ()⟩]) (present c.2)

theorem Fetched.nodup (hρ : Lawful ρ) {pre : List Exchange} {es : List (EntryId × Fields Text)}
    (h : Fetched ρ cfg pre es) : (es.map Prod.fst).Nodup := by
  cases h with
  | new hread => exact hρ.new _ _ _ hread
  | claimed _ _ _ _ hclaim _ => exact present_nodup (hρ.claimed _ _ _ _ _ hclaim)

/-- Where the first command succeeds, the rest of the sequence follows it. -/
theorem play_seq {α : Type} {c : Cmd} {a : Ans c} (ha : ρ h c = .ok a) (k : Ans c → Prog α) :
    ((Prog.bind (await c) k).play ρ h).1 =
      ⟨c, .ok a⟩ :: ((k a).play ρ (h ++ [⟨c, .ok a⟩])).1 := by
  rw [await, Prog.play_bind_ok k (by rw [Prog.play_issue, ha]), Prog.play_issue, ha]
  rfl

/-- The second half of `_tick`, from the reading of the claim cursor on. -/
def claimPass (cfg : Config) : Prog Unit :=
  Prog.bind (await .cursor) fun cursor =>
  Prog.bind (await (.xautoclaim (seconds cfg.settings.queueClaimIdleSeconds) cursor 64)) fun c =>
  Prog.bind (await (.setCursor c.1)) fun _ => handleAll cfg (present c.2)

theorem tick_eq : tick cfg =
    Prog.bind (await (.xreadgroup 16)) fun new =>
      Prog.bind (handleAll cfg new) fun _ => claimPass cfg := by
  unfold tick claimPass
  simp only [Prog.bind_eq, forEach_handleClaimed]
  rfl

/-- The tick goes on with the loop over the batch, and an exception that leaves the
loop ends it. -/
theorem Fetched.loop {pre : List Exchange} {es : List (EntryId × Fields Text)}
    (h : Fetched ρ cfg pre es) :
    ∃ more, ((tick cfg).play ρ []).1 = pre ++ (((handleAll cfg es).play ρ pre).1 ++ more) ∧
      ∀ e, ((handleAll cfg es).play ρ pre).2 = .error e → more = [] := by
  rw [tick_eq]
  cases h with
  | new hread =>
    rw [play_seq hread, List.nil_append]
    obtain ⟨more, hmore⟩ := Prog.play_bind_prefix (handleAll cfg es) (fun _ => claimPass cfg)
      [⟨.xreadgroup 16, .ok es⟩]
    refine ⟨more, by rw [hmore, List.singleton_append], fun e he => ?_⟩
    rw [Prog.play_bind_error _ he] at hmore
    exact List.append_cancel_left (hmore.trans (List.append_nil _).symm)
  | claimed hread hpre hdone hcursor hclaim hset =>
    refine ⟨[], ?_, fun _ _ => rfl⟩
    rw [play_seq hread, List.nil_append, Prog.play_bind_ok _ hdone, List.singleton_append,
      ← List.cons_append, ← hpre, claimPass, play_seq hcursor, play_seq hclaim, List.append_assoc,
      play_seq (by simpa using hset)]
    simp

end Queue
end AdaptiveGateway
