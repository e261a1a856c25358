/-
One replay, command by command.

The automaton of `Queue.Lease` forgets when the entry was found due and what was
written about it.  The one below keeps both: under its lease a worker reads the due
time and compares it with the clock, reads the attempts, writes their number plus
one, reads the clock, writes the due time that belongs to the new number and to this
reading, sends one request, and waits for its answer.  From every turn it may also
go over to the terminal outcomes, and then it sends nothing any more.

A token names the worker that drew it, so that a lease in place says whose it is.
-/
import AdaptiveGateway.Concurrent.Phases
import AdaptiveGateway.Queue.Lease

namespace AdaptiveGateway
namespace Queue

open Codec Concurrent

/-! ## The automaton -/

/-- How far a replay has got. -/
inductive Turn where
  | held
  /-- The due time has been read. -/
  | dated (due : Option Time)
  /-- The due time has passed. -/
  | ready
  | counted (n : Nat)
  | fit (n : Nat)
  /-- The attempts have been written. -/
  | spent (n : Nat)
  | timed (n : Nat) (t : Time)
  /-- The due time has been written. -/
  | set (n : Nat) (t : Time)
  /-- The request is in flight. -/
  | flying
  | closed
  /-- `XACK` has returned. -/
  | acked

inductive Duty where
  | free
  | drawn (t : Token)
  | leased (m : EntryId) (t : Token) (turn : Turn)

def Turn.next : Turn → (c : Cmd) → Except Exc (Ans c) → Turn
  | held, .hgetDue _, .ok due => dated due
  | dated (some due), .time, .ok now => if now < due then closed else ready
  | dated none, .hgetAttempts _, .ok n => counted (n.getD 0)
  | ready, .hgetAttempts _, .ok n => counted (n.getD 0)
  | counted n, .time, .ok _ => fit n
  | fit _, .hsetAttempts _ n, .ok _ => spent n
  | spent n, .time, .ok t => timed n t
  | timed n t, .hsetDue _ _, .ok _ => set n t
  | set _ _, .send _ _, .ok _ => flying
  | _, .xack _, .ok _ => acked
  | acked, .xdel _, .ok _ => acked
  | acked, .hdelAttempts _, .ok _ => acked
  | _, _, _ => closed

namespace Duty

def allows (cfg : Config) : Duty → Cmd → Prop
  | free, .time | free, .tokenHex | free, .cursor | free, .setCursor _ | free, .xgroupCreate
  | free, .xadd _ _ | free, .xreadgroup _ | free, .xautoclaim _ _ _ => True
  | drawn t, .setNx _ t' ttl => t' = t ∧ ttl = cfg.settings.queueClaimIdleSeconds
  | leased m t _, .getDel m' t' => m' = m ∧ t' = t
  | leased m _ _, .hgetAttempts m' | leased m _ _, .commit m' _ | leased m _ _, .xack m' => m' = m
  | leased m _ .held, .hgetDue m' => m' = m
  | leased _ _ (.dated (some _)), .time | leased _ _ (.counted _), .time
  | leased _ _ (.spent _), .time => True
  | leased m _ (.fit n), .hsetAttempts m' k => m' = m ∧ k = n + 1
  | leased m _ (.timed n t), .hsetDue m' due => m' = m ∧ due = t + seconds (backoffSeconds cfg n)
  | leased m _ (.set _ _), .send m' _ => m' = m
  | leased m _ .flying, .recv m' => m' = m
  | leased m _ .acked, .xdel m' | leased m _ .acked, .hdelAttempts m'
  | leased m _ .acked, .hdelDue m' => m' = m
  | _, _ => False

def next : Duty → (c : Cmd) → Except Exc (Ans c) → Duty
  | free, .tokenHex, .ok t => drawn t
  | free, _, _ => free
  | drawn t, .setNx m _ _, .ok true => leased m t .held
  | drawn _, _, _ => free
  | leased _ _ _, .getDel _ _, _ => free
  | leased m t turn, c, r => leased m t (turn.next c r)

end Duty

def replayProtocol (cfg : Config) : Concurrent.Prog.Protocol Cmd Ans Exc where
  Phase := Duty
  allows := Duty.allows cfg
  next := Duty.next

/-! ## The programs follow it -/

section Follows

variable {cfg : Config} {m : EntryId} {f : Fields Text} {t : Token} {turn : Turn}

/-- Still under the lease. -/
def Under (m : EntryId) (t : Token) (d : Duty) : Prop := ∃ turn, d = .leased m t turn

theorem duty_next {c : Cmd} (r : Except Exc (Ans c)) (hc : ∀ m t, c ≠ .getDel m t) :
    Duty.next (.leased m t turn) c r = .leased m t (turn.next c r) := by
  cases c with
  | getDel m' t' => exact absurd rfl (hc m' t')
  | _ => rfl

/-- One command in front of what goes on under the lease. -/
theorem under_seq {c : Cmd} {α : Type} {k : Ans c → Prog α}
    (hallow : Duty.allows cfg (.leased m t turn) c) (hc : ∀ m t, c ≠ .getDel m t)
    (hk : ∀ a, (k a).Follows (replayProtocol cfg) (.leased m t (turn.next c (.ok a)))
      fun _ => Under m t) :
    (Prog.bind (await c) k).Follows (replayProtocol cfg) (.leased m t turn)
      fun _ => Under m t := by
  have hcmd : (await c).Follows (replayProtocol cfg) (.leased m t turn)
      fun r d => d = .leased m t (turn.next c r) :=
    Prog.Follows.issue hallow fun r => duty_next r hc
  refine hcmd.bind ?_ ?_
  · rintro e _ rfl
    exact ⟨_, rfl⟩
  · rintro a _ rfl
    exact hk a

theorem ack_turns : (ack m).Follows (replayProtocol cfg) (.leased m t turn)
    fun _ => Under m t := by
  have hxack : turn.next (.xack m) (.ok ()) = .acked := by
    cases turn with
    | dated due => cases due <;> rfl
    | _ => rfl
  refine under_seq (by cases turn <;> exact rfl) (by simp) fun _ => ?_
  rw [hxack]
  refine under_seq rfl (by simp) fun _ => ?_
  refine under_seq rfl (by simp) fun _ => ?_
  exact Prog.Follows.issue rfl fun _ => ⟨_, rfl⟩

theorem deadLetter_turns (n : Nat) (e : Option Text) :
    (Prog.bind (deadLetter cfg m f n e) fun _ => ack m).Follows (replayProtocol cfg)
      (.leased m t turn) fun _ => Under m t := by
  rw [deadLetter]
  split
  next => exact ⟨turn, rfl⟩
  next => exact under_seq (by cases turn <;> exact rfl) (by simp) fun _ => ack_turns

theorem upstreamCall_turns (headers : Dict Text Json) {n : Nat} {now : Time} :
    (upstreamCall cfg m f headers).Follows (replayProtocol cfg) (.leased m t (.set n now))
      fun _ => Under m t := by
  refine Prog.Follows.except (Q := fun _ => Under m t) ?_ (fun _ _ h => h) fun e d h => ?_
  · cases replayRequest f headers with
    | error e => exact ⟨_, rfl⟩
    | ok req =>
      change Prog.Follows _ (Prog.bind (await (.send m req)) _) _ _
      refine under_seq rfl (by simp) fun _ => ?_
      refine under_seq rfl (by simp) fun a => ?_
      cases boundedResponse cfg a <;> exact ⟨_, rfl⟩
  · cases transportName e <;> exact h

theorem replay_turns (headers : Dict Text Json) (n : Nat) :
    (replay cfg m f headers (n + 1)).Follows (replayProtocol cfg) (.leased m t (.fit n))
      fun _ => Under m t := by
  refine under_seq ⟨rfl, rfl⟩ (by simp) fun _ => ?_
  refine under_seq trivial (by simp) fun now => ?_
  refine under_seq ⟨rfl, rfl⟩ (by simp) fun _ => ?_
  refine (upstreamCall_turns headers).bind (fun _ _ h => h) ?_
  rintro o _ ⟨turn, rfl⟩
  split
  next => exact ack_turns
  next =>
    split
    next => exact deadLetter_turns _ _
    next => exact ⟨turn, rfl⟩

theorem attemptsOf_turns (hturn : turn = .ready ∨ turn = .dated none) :
    (attemptsOf m).Follows (replayProtocol cfg) (.leased m t turn) fun r d => match r with
      | .ok n => d = .leased m t (.counted n)
      | .error _ => Under m t d := by
  rcases hturn with rfl | rfl
  all_goals
    refine ⟨rfl, fun r => ?_⟩
    cases r with
    | ok raw => exact rfl
    | error e => exact ⟨_, rfl⟩

theorem deliverDue_turns (hturn : turn = .ready ∨ turn = .dated none) :
    (deliverDue cfg m f).Follows (replayProtocol cfg) (.leased m t turn) fun _ => Under m t := by
  refine (attemptsOf_turns hturn).bind (fun _ _ h => h) ?_
  rintro n _ rfl
  simp only
  split
  next => exact ⟨_, rfl⟩
  next =>
    split
    next headers service _ _ =>
      refine under_seq trivial (by simp) fun now => ?_
      split
      next => exact ⟨_, rfl⟩
      next timestamp _ =>
        split
        next => exact deadLetter_turns _ _
        next => exact replay_turns headers n
    next => exact ⟨_, rfl⟩

theorem deliver_turns : (deliver cfg m f).Follows (replayProtocol cfg) (.leased m t .held)
    fun _ => Under m t := by
  refine under_seq rfl (by simp) fun due => ?_
  cases due with
  | none => exact deliverDue_turns (Or.inr rfl)
  | some due =>
    refine under_seq trivial (by simp) fun now => ?_
    by_cases hdue : now < due
    · rw [if_pos hdue]
      exact ⟨_, rfl⟩
    · have hready : Turn.next (.dated (some due)) .time (.ok now) = .ready := if_neg hdue
      rw [if_neg hdue]
      exact deliverDue_turns (Or.inl hready)

theorem bury_turns : (bury cfg m f).Follows (replayProtocol cfg) (.leased m t turn)
    fun _ => Under m t := by
  have hattempts : (attemptsOf m).Follows (replayProtocol cfg) (.leased m t turn)
      fun _ => Under m t :=
    under_seq (by cases turn <;> exact rfl) (by simp) fun _ => ⟨_, rfl⟩
  refine hattempts.bind (fun _ _ h => h) ?_
  rintro n _ ⟨turn, rfl⟩
  exact deadLetter_turns _ _

theorem releaseLock_turns : (releaseLock m t).Follows (replayProtocol cfg)
    (.leased m t turn) fun _ d => d = .free := by
  refine Prog.Follows.except (Q := fun _ d => d = Duty.free)
    (Prog.Follows.issue (by cases turn <;> exact ⟨rfl, rfl⟩) fun _ => rfl) (fun _ _ h => h) ?_
  rintro e _ rfl
  by_cases he : e = .redisError
  · simp only [he, if_pos]
    rfl
  · simp only [if_neg he]
    rfl

theorem acquireLock_turns : (acquireLock m cfg.settings.queueClaimIdleSeconds).Follows
    (replayProtocol cfg) .free fun r d => match r with
      | .ok (some t) => d = .leased m t .held
      | _ => d = .free := by
  refine ⟨trivial, fun r => ?_⟩
  cases r with
  | error e => exact rfl
  | ok t =>
    refine ⟨⟨rfl, rfl⟩, fun r => ?_⟩
    cases r with
    | error e =>
      by_cases he : e = .redisError
      · simp only [he, if_pos, Prog.except, Prog.bind, Option.getD]
        rfl
      · simp only [if_neg he, Prog.except, Prog.bind, Option.getD]
        rfl
    | ok acquired => cases acquired <;> exact rfl

theorem handle_turns : (handle cfg m f).Follows (replayProtocol cfg) .free
    fun _ d => d = .free := by
  refine acquireLock_turns.bind (fun _ _ h => h) fun lease d h => ?_
  cases lease with
  | none => exact h
  | some t =>
    obtain rfl : d = .leased m t .held := h
    refine Prog.Follows.finally_ (Q := fun _ => Under m t) ?_ ?_
    · refine deliver_turns.except (fun _ _ h => h) ?_
      rintro e _ ⟨turn, rfl⟩
      by_cases he : isMalformed e = true
      · simp only [he, if_pos]
        exact bury_turns
      · simp only [he]
        exact ⟨turn, rfl⟩
    · rintro r _ ⟨turn, rfl⟩
      exact releaseLock_turns.mono fun r d h => by cases r <;> exact h

/-- One command in front of what goes on outside any lease. -/
theorem outside_seq {c : Cmd} {α : Type} {k : Ans c → Prog α} {Q : Except Exc α → Duty → Prop}
    (hallow : Duty.allows cfg .free c) (hc : c ≠ .tokenHex) (herror : ∀ e, Q (.error e) .free)
    (hk : ∀ a, (k a).Follows (replayProtocol cfg) .free Q) :
    (Prog.bind (await c) k).Follows (replayProtocol cfg) .free Q := by
  have hnext : ∀ r, Duty.next .free c r = .free := by
    intro r
    cases c <;> first | rfl | exact absurd rfl hc
  have hcmd : (await c).Follows (replayProtocol cfg) .free fun _ d => d = .free :=
    Prog.Follows.issue hallow hnext
  refine hcmd.bind ?_ ?_
  · rintro e _ rfl
    exact herror e
  · rintro a _ rfl
    exact hk a

theorem tick_turns : (tick cfg).Follows (replayProtocol cfg) .free fun _ d => d = .free := by
  have hbatch : ∀ {β : Type} {h : β → Prog Unit} (bs : List β),
      (∀ b, (h b).Follows (replayProtocol cfg) .free fun _ d => d = .free) →
      (Prog.forEach h bs).Follows (replayProtocol cfg) .free fun _ d => d = .free :=
    fun bs hh => Prog.Follows.forEach rfl fun b _ => (hh b).mono fun r d h => by cases r <;> exact h
  refine outside_seq trivial (by simp) (fun _ => rfl) fun new => ?_
  refine (hbatch new fun e => handle_turns).bind (fun _ _ h => h) ?_
  rintro _ _ rfl
  refine outside_seq trivial (by simp) (fun _ => rfl) fun cursor => ?_
  refine outside_seq trivial (by simp) (fun _ => rfl) fun claimed => ?_
  refine outside_seq trivial (by simp) (fun _ => rfl) fun _ => ?_
  refine hbatch claimed.2 fun e => ?_
  obtain ⟨m, fields⟩ := e
  cases fields with
  | none => exact rfl
  | some f => exact handle_turns

theorem round_turns : (round cfg).Follows (replayProtocol cfg) .free fun _ d => d = .free := by
  have hbody : (do ensureGroup; tick cfg : Prog Unit).Follows (replayProtocol cfg) .free
      fun _ d => d = .free := by
    have hgroup : ensureGroup.Follows (replayProtocol cfg) .free fun _ d => d = .free :=
      outside_seq trivial (by simp) (fun _ => rfl) fun _ => rfl
    refine hgroup.bind (fun _ _ h => h) ?_
    rintro _ _ rfl
    exact tick_turns
  have hguarded : (Prog.except (do ensureGroup; tick cfg : Prog Unit)
      fun e => if e = .cancelled then none else some (.ret ())).Follows (replayProtocol cfg) .free
      fun _ d => d = .free := by
    refine hbody.except (fun _ _ h => h) ?_
    rintro e _ rfl
    by_cases he : e = .cancelled
    · simp only [he, if_pos]
      rfl
    · simp only [if_neg he]
      rfl
  exact hguarded.bind (fun _ _ h => h) fun _ _ h => h

/-- Every task starts and ends outside any lease. -/
theorem boot_turns {writes : Nat → Write} (i : Thread) :
    (boot cfg writes i).Follows (replayProtocol cfg) .free fun _ d => d = .free := by
  cases i with
  | worker n => exact round_turns
  | client n =>
    have henqueue : (enqueueWrite cfg (writes n)).Follows (replayProtocol cfg) .free
        fun _ d => d = .free := by
      unfold enqueueWrite
      split
      next =>
        refine outside_seq trivial (by simp) (fun _ => rfl) fun now => ?_
        refine outside_seq trivial (by simp) (fun _ => rfl) fun result => ?_
        cases result <;> exact rfl
      next => exact rfl
    exact henqueue.bind (fun _ _ h => h) fun _ _ h => h

theorem again_turns {i : Thread} {r : Except Exc (Option EntryId)} {p : Prog (Option EntryId)}
    {d : Duty} (h : again cfg i r = some p) (hd : d = .free) :
    p.Follows (replayProtocol cfg) d fun _ d => d = .free := by
  subst hd
  cases i with
  | worker n =>
    cases r with
    | ok a =>
      cases h
      exact round_turns
    | error e => cases h
  | client n => cases h

end Follows

/-- A request is made at one turn only. -/
theorem set_of_allows {cfg : Config} {m : EntryId} {req : HttpRequest (Dict Text Json)} {f : Duty}
    (hallow : f.allows cfg (.send m req)) : ∃ t n now, f = .leased m t (.set n now) := by
  cases f with
  | free => exact hallow.elim
  | drawn t => exact hallow.elim
  | leased m' t turn =>
    cases turn with
    | set n now =>
      obtain rfl : m = m' := hallow
      exact ⟨t, n, now, rfl⟩
    | _ => exact hallow.elim

theorem flying_of_allows {cfg : Config} {m : EntryId} {f : Duty} (hallow : f.allows cfg (.recv m)) :
    ∃ t, f = .leased m t .flying := by
  cases f with
  | free => exact hallow.elim
  | drawn t => exact hallow.elim
  | leased m' t turn =>
    cases turn with
    | flying =>
      obtain rfl : m = m' := hallow
      exact ⟨t, rfl⟩
    | _ => exact hallow.elim

/-! ## Runs -/

abbrev State := Pool Thread Cmd Ans Exc (Option EntryId) World

section Runs

variable {cfg : Config} {writes : Nat → Write}

theorem again_follows_turns (i : Thread) (r : Except Exc (Option EntryId))
    (n : Prog (Option EntryId)) (f : Duty) (h : (machine cfg writes).again i r = some n)
    (hf : f = .free) : n.Follows (replayProtocol cfg) f fun _ d => d = .free :=
  again_turns h hf

theorem start_turns : InPhase (replayProtocol cfg) (fun d => d = Duty.free)
    ((machine cfg writes).start {}) (fun _ => some Duty.free) :=
  InPhase.start fun i => boot_turns i

end Runs

/-! ## What a command does to the clock and the leases -/

section Commands

variable {i : Thread} {s s' : World} {m : EntryId} {c : Cmd} {ch : Choice}

theorem perform_now {a : Option UpstreamAnswer} {o : Except Exc (Ans c)}
    (h : perform i a s c = some (o, s')) : s'.now = s.now := by
  cases c with
  | xadd | xgroupCreate | setNx | recv | commit =>
    simp only [perform] at h
    split at h <;> cases h <;> rfl
  | xreadgroup | xautoclaim =>
    simp only [perform] at h
    split at h
    next => cases h; rfl
    next => split at h <;> cases h <;> rfl
  | getDel m t =>
    simp only [perform] at h
    split at h
    next => split at h <;> cases h <;> rfl
    next => cases h; rfl
  | _ => cases h; rfl

/-- A command takes no time of its own; time goes by before it. -/
theorem exec_now {r : Except Exc (Ans c)} (h : exec i c ch s = some (r, s')) : s'.now = s.now :=
  exec_keeps (J := fun t => t.now = s.now) (fun t r ht => by simpa using ht)
    (fun _ _ _ hp => perform_now hp) rfl h

theorem exec_time {t : Time} (h : exec i .time ch s = some (.ok t, s')) : t = s.now ∧ s' = s := by
  obtain ⟨u, s₁, hp, rfl⟩ := exec_ok h
  cases hp
  exact ⟨rfl, rfl⟩

theorem exec_tokenHex {t : Token} (h : exec i .tokenHex ch s = some (.ok t, s')) : t.owner = i := by
  obtain ⟨u, s₁, hp, rfl⟩ := exec_ok h
  cases hp
  rfl

theorem exec_setNx_won {t : Token} {n : Nat} (h : exec i (.setNx m t n) ch s = some (.ok true, s')) :
    s'.lock = Function.update s.lock m (some ⟨t, s.now + seconds n⟩) := by
  obtain ⟨u, s₁, hp, rfl⟩ := exec_ok h
  simp only [perform] at hp
  split at hp
  next => cases hp
  next =>
    cases hp
    simp

/-- What a duty lets a command do to the leases. -/
theorem exec_lock {cfg : Config} {d : Duty} {r : Except Exc (Ans c)} (hd : d.allows cfg c)
    (h : exec i c ch s = some (r, s')) :
    s'.lock = s.lock ∨
    (∃ m t, d = .drawn t ∧ s.lock m = none ∧ s'.lock = Function.update s.lock m
      (some ⟨t, s.now + seconds cfg.settings.queueClaimIdleSeconds⟩)) ∨
    (∃ m t turn l, d = .leased m t turn ∧ s.lock m = some l ∧ l.token = t ∧
      s'.lock = Function.update s.lock m none ∧ d.next c r = .free) := by
  obtain ⟨hlock, -⟩ | ⟨m, t, n, rfl, hnone, hlock, -⟩ | ⟨m, t, l, rfl, hl, ht, hlock, -⟩ :=
    exec_lease h
  · exact Or.inl hlock
  · cases d with
    | drawn t' =>
      obtain ⟨rfl, rfl⟩ : t = t' ∧ n = cfg.settings.queueClaimIdleSeconds := hd
      exact Or.inr (Or.inl ⟨m, t, rfl, hnone, hlock⟩)
    | free => exact hd.elim
    | leased m' t' turn => cases turn <;> exact hd.elim
  · cases d with
    | leased m' t' turn =>
      obtain ⟨rfl, rfl⟩ : m = m' ∧ t = t' := by cases turn <;> exact hd
      exact Or.inr (Or.inr ⟨m, t, turn, l, rfl, hl, ht, hlock, rfl⟩)
    | free => exact hd.elim
    | drawn t' => exact hd.elim

/-- A token is drawn by the thread that it names. -/
theorem exec_drawn {cfg : Config} {f : Duty} {t : Token} {r : Except Exc (Ans c)}
    (hallow : f.allows cfg c) (he : exec i c ch s = some (r, s')) (h : f.next c r = .drawn t) :
    t.owner = i := by
  cases f with
  | free =>
    cases c with
    | tokenHex =>
      cases r with
      | ok t' =>
        cases h
        exact exec_tokenHex he
      | error e => cases h
    | _ => cases h
  | drawn t' =>
    cases c with
    | setNx m t'' n =>
      cases r with
      | ok b => cases b <;> cases h
      | error e => cases h
    | _ => exact hallow.elim
  | leased m t' turn =>
    by_cases hdel : ∃ m t, c = .getDel m t
    · obtain ⟨m', t'', rfl⟩ := hdel
      cases h
    · rw [duty_next r fun m t hc => hdel ⟨m, t, hc⟩] at h
      cases h

/-- A lease is taken with the token that was drawn, or it was held before. -/
theorem exec_leased {cfg : Config} {f : Duty} {t : Token} {turn : Turn} {r : Except Exc (Ans c)}
    (hallow : f.allows cfg c) (he : exec i c ch s = some (r, s'))
    (h : f.next c r = .leased m t turn) :
    (f = .drawn t ∧ turn = .held ∧ c = .setNx m t cfg.settings.queueClaimIdleSeconds ∧
      s'.lock = Function.update s.lock m
        (some ⟨t, s.now + seconds cfg.settings.queueClaimIdleSeconds⟩)) ∨
    (∃ turn', f = .leased m t turn' ∧ (∀ m t, c ≠ .getDel m t) ∧ turn = turn'.next c r) := by
  cases f with
  | free =>
    cases c with
    | tokenHex => cases r <;> cases h
    | _ => cases h
  | drawn t' =>
    cases c with
    | setNx m' t'' n =>
      cases r with
      | ok b =>
        cases b with
        | false => cases h
        | true =>
          cases h
          obtain ⟨rfl, rfl⟩ : t'' = t ∧ n = cfg.settings.queueClaimIdleSeconds := hallow
          exact Or.inl ⟨rfl, rfl, rfl, exec_setNx_won he⟩
      | error e => cases h
    | _ => exact hallow.elim
  | leased m' t' turn' =>
    by_cases hdel : ∃ m t, c = .getDel m t
    · obtain ⟨m'', t'', rfl⟩ := hdel
      cases h
    · have hne : ∀ m t, c ≠ .getDel m t := fun m t hc => hdel ⟨m, t, hc⟩
      rw [duty_next r hne] at h
      cases h
      exact Or.inr ⟨turn', rfl, hne, rfl⟩

end Commands

/-! ## Whose a lease is -/

/-- A lease in place that is a worker's own, while it is at work on the entry, is
the one that it works under. -/
structure Owned (s : World) (φ : Thread → Option Duty) : Prop where
  drawn : ∀ i t, φ i = some (.drawn t) → t.owner = i
  leased : ∀ i m t turn, φ i = some (.leased m t turn) → t.owner = i ∧
    ∀ l, s.lock m = some l → l.token.owner = i → l.token = t

section Owned

variable {cfg : Config} {writes : Nat → Write} {φ φ' : Thread → Option Duty}
  {p q : State} {l : Label Thread Choice Time}

theorem owned_start : Owned {} fun _ => some .free where
  drawn i t h := by cases h
  leased i m t turn h := by cases h

/-- Leases that run out, and threads that crash, leave the rest as it was. -/
theorem Owned.mono {s s' : World} (h : Owned s φ) (hφ : ∀ i d, φ' i = some d → φ i = some d)
    (hlock : ∀ m l, s'.lock m = some l → s.lock m = some l) : Owned s' φ' where
  drawn i t hi := h.drawn i t (hφ i _ hi)
  leased i m t turn hi := by
    obtain ⟨howner, hl⟩ := h.leased i m t turn (hφ i _ hi)
    exact ⟨howner, fun l hl' => hl l (hlock m l hl')⟩

theorem advance_lock {s : World} {d : Time} {m : EntryId} {l : Lease}
    (h : (advance d s).lock m = some l) : s.lock m = some l ∧ s.now + d < l.expires := by
  obtain ⟨hl, hlt⟩ := Option.filter_eq_some_iff.mp h
  exact ⟨hl, by simpa using hlt⟩

theorem Owned.act {s s' : World} {i : Thread} {c : Cmd} {ch : Choice} {r : Except Exc (Ans c)}
    {f : Duty} (h : Owned s φ) (hf : φ i = some f) (hallow : f.allows cfg c)
    (he : exec i c ch s = some (r, s')) : Owned s' (Function.update φ i (some (f.next c r))) := by
  have hlock := exec_lock hallow he
  -- A lease that appears is one of the thread that sets it.
  have hkeep : ∀ j m l, j ≠ i ∨ f ≠ .drawn l.token → s'.lock m = some l → l.token.owner = j →
      s.lock m = some l := by
    intro j m l hj hl howner
    obtain hsame | ⟨m', t, rfl, -, hset⟩ | ⟨m', t, turn, l', -, -, -, hdel, -⟩ := hlock
    · rwa [hsame] at hl
    · rw [hset] at hl
      by_cases hm : m = m'
      · subst hm
        rw [Function.update_self] at hl
        cases hl
        exact (hj.elim (fun h' => h' (howner.symm.trans (h.drawn i t hf))) fun h' => h' rfl).elim
      · rwa [Function.update_of_ne hm] at hl
    · rw [hdel] at hl
      by_cases hm : m = m'
      · subst hm
        rw [Function.update_self] at hl
        cases hl
      · rwa [Function.update_of_ne hm] at hl
  constructor
  · intro j t hj
    obtain ⟨rfl, hd⟩ | ⟨-, hj⟩ := update_some hj
    · exact exec_drawn hallow he hd.symm
    · exact h.drawn j t hj
  · intro j m t turn hj
    obtain ⟨rfl, hd⟩ | ⟨hji, hj⟩ := update_some hj
    · obtain ⟨rfl, -, -, hset⟩ | ⟨turn', rfl, -, -⟩ := exec_leased hallow he hd.symm
      · refine ⟨h.drawn j t hf, fun l hl _ => ?_⟩
        rw [hset, Function.update_self] at hl
        cases hl
        rfl
      · obtain ⟨howner, hl⟩ := h.leased j m t turn' hf
        exact ⟨howner, fun l hl' ho => hl l (hkeep j m l (Or.inr (by simp)) hl' ho) ho⟩
    · obtain ⟨howner, hl⟩ := h.leased j m t turn hj
      exact ⟨howner, fun l hl' ho => hl l (hkeep j m l (Or.inl hji) hl' ho) ho⟩

theorem Owned.move {φ φ' : Thread → Option (replayProtocol cfg).Phase} (h : Owned p.state φ)
    (hm : Moves (replayProtocol cfg) (fun d => d = .free) (machine cfg writes) p φ l q φ') :
    Owned q.state φ' := by
  cases hm with
  | act hp he hf hallow => exact h.act hf hallow he
  | loop => exact h
  | @crash i =>
    refine h.mono (fun j d hj => ?_) fun _ _ hl => hl
    by_cases hji : j = i
    · subst hji
      rw [Function.update_self] at hj
      cases hj
    · rwa [Function.update_of_ne hji] at hj
  | @env d s he =>
    cases he
    exact h.mono (fun _ _ hi => hi) fun _ _ hl => (advance_lock hl).1

end Owned

end Queue
end AdaptiveGateway
