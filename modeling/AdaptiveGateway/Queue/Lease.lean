/-
The lease protocol of a sync worker.

A worker draws a token, takes the replay lease of one entry with it, and touches
that entry's keys only until it gives the lease back.  Under one lease it reads
the attempts before it writes them, writes them before it sends, sends at most
once, deletes the entry only after its `XACK` has returned, and its hash fields
only after its `XDEL` has.  The automaton below says exactly this, and the programs
are shown to follow it, so that a property of all runs can be proved from the
automaton and the commands alone.
-/
import AdaptiveGateway.Queue.Effects

namespace AdaptiveGateway
namespace Queue

open Codec Concurrent

variable {i : Thread} {s s' : World} {m : EntryId}

/-! ## The automaton -/

/-- How far the work under a lease has got. -/
inductive Stage where
  | fresh
  /-- The attempts have been read. -/
  | counted (n : Nat)
  /-- The attempts have been written. -/
  | spent
  /-- Nothing will be sent any more. -/
  | closed
  /-- `XACK` has returned. -/
  | acked
  /-- `XDEL` has returned as well. -/
  | deleted

inductive Phase where
  | free
  | drawn (t : Token)
  | leased (m : EntryId) (t : Token) (stage : Stage)

namespace Phase

def allows (limit : Nat) : Phase → Cmd → Prop
  | free, .time | free, .tokenHex | free, .cursor | free, .setCursor _ | free, .xgroupCreate
  | free, .xadd _ _ | free, .xreadgroup _ | free, .xautoclaim _ _ _ => True
  | drawn t, .setNx _ t' _ => t' = t
  | leased _ _ _, .time => True
  | leased m _ _, .hgetDue m' | leased m _ _, .hgetAttempts m' | leased m _ _, .hsetDue m' _
  | leased m _ _, .commit m' _ | leased m _ _, .recv m' | leased m _ _, .xack m' => m' = m
  | leased m _ stage, .hsetAttempts m' n =>
    m' = m ∧ ∃ k, stage = .counted k ∧ n = k + 1 ∧ n ≤ limit
  | leased m _ stage, .send m' _ => m' = m ∧ stage = .spent
  | leased m _ stage, .xdel m' => m' = m ∧ stage = .acked
  | leased m _ stage, .hdelAttempts m' | leased m _ stage, .hdelDue m' =>
    m' = m ∧ stage = .deleted
  | leased m t _, .getDel m' t' => m' = m ∧ t' = t
  | _, _ => False

def next : Phase → (c : Cmd) → Except Exc (Ans c) → Phase
  | free, .tokenHex, .ok t => drawn t
  | free, _, _ => free
  | drawn t, .setNx m _ _, .ok true => leased m t .fresh
  | drawn _, _, _ => free
  | leased _ _ _, .getDel _ _, _ => free
  | leased m t .fresh, .hgetAttempts _, .ok n => leased m t (.counted (n.getD 0))
  | leased m t _, .hsetAttempts _ _, .ok _ => leased m t .spent
  | leased m t _, .hsetAttempts _ _, .error _ => leased m t .closed
  | leased m t _, .send _ _, _ => leased m t .closed
  | leased m t _, .xack _, .ok _ => leased m t .acked
  | leased m t _, .xack _, .error _ => leased m t .closed
  | leased m t _, .xdel _, .ok _ => leased m t .deleted
  | leased m t _, .xdel _, .error _ => leased m t .closed
  | leased m t stage, _, _ => leased m t stage

end Phase

def leaseProtocol (cfg : Config) : Concurrent.Prog.Protocol Cmd Ans Exc where
  Phase := Phase
  allows := Phase.allows (maxAttempts cfg)
  next := Phase.next

/-! ## The programs follow it -/

section Follows

variable {cfg : Config} {f : Fields Text} {t : Token} {stage : Stage}

/-- Still inside the lease. -/
def Inside (m : EntryId) (t : Token) (φ : Phase) : Prop := ∃ stage, φ = .leased m t stage

theorem inside_next {c : Cmd} {r : Except Exc (Ans c)} (hc : ∀ m t, c ≠ .getDel m t) :
    Inside m t (Phase.next (.leased m t stage) c r) := by
  cases c with
  | getDel m' t' => exact absurd rfl (hc m' t')
  | hgetAttempts m' => cases stage <;> cases r <;> exact ⟨_, rfl⟩
  | hsetAttempts m' n => cases r <;> exact ⟨_, rfl⟩
  | xack m' => cases r <;> exact ⟨_, rfl⟩
  | xdel m' => cases r <;> exact ⟨_, rfl⟩
  | _ => exact ⟨_, rfl⟩

/-- One command in front of what goes on inside the lease. -/
theorem inside_seq {c : Cmd} {α : Type} {k : Ans c → Prog α}
    (hallow : Phase.allows (maxAttempts cfg) (.leased m t stage) c)
    (hc : ∀ m t, c ≠ .getDel m t)
    (hk : ∀ a, (k a).Follows (leaseProtocol cfg) (Phase.next (.leased m t stage) c (.ok a))
      fun _ => Inside m t) :
    (Prog.bind (await c) k).Follows (leaseProtocol cfg) (.leased m t stage)
      fun _ => Inside m t := by
  have hcmd : (await c).Follows (leaseProtocol cfg) (.leased m t stage)
      fun r φ => φ = Phase.next (.leased m t stage) c r :=
    Prog.Follows.issue hallow fun _ => rfl
  refine hcmd.bind ?_ ?_
  · rintro e _ rfl
    exact inside_next hc
  · rintro a _ rfl
    exact hk a

theorem ack_follows : (ack m).Follows (leaseProtocol cfg) (.leased m t stage)
    fun _ => Inside m t := by
  refine inside_seq rfl (by simp) fun _ => ?_
  refine inside_seq ⟨rfl, rfl⟩ (by simp) fun _ => ?_
  refine inside_seq ⟨rfl, rfl⟩ (by simp) fun _ => ?_
  exact Prog.Follows.issue ⟨rfl, rfl⟩ fun _ => ⟨.deleted, rfl⟩

theorem deadLetter_follows (n : Nat) (e : Option Text) :
    (Prog.bind (deadLetter cfg m f n e) fun _ => ack m).Follows (leaseProtocol cfg)
      (.leased m t stage) fun _ => Inside m t := by
  rw [deadLetter]
  split
  next => exact ⟨stage, rfl⟩
  next => exact inside_seq rfl (by simp) fun _ => ack_follows

/-- Under a spent lease one request is sent, and none after it. -/
theorem upstreamCall_follows (headers : Dict Text Json) :
    (upstreamCall cfg m f headers).Follows (leaseProtocol cfg) (.leased m t .spent)
      fun _ => Inside m t := by
  refine Prog.Follows.except (Q := fun _ => Inside m t) ?_ (fun _ _ h => h) fun e φ h => ?_
  · cases replayRequest f headers with
    | error e => exact ⟨_, rfl⟩
    | ok req =>
      change Prog.Follows _ (Prog.bind (await (.send m req)) _) _ _
      refine inside_seq ⟨rfl, rfl⟩ (by simp) fun _ => ?_
      refine inside_seq rfl (by simp) fun a => ?_
      cases boundedResponse cfg a <;> exact ⟨_, rfl⟩
  · cases transportName e <;> exact h

theorem replay_follows (headers : Dict Text Json) {n : Nat} (hn : n + 1 ≤ maxAttempts cfg) :
    (replay cfg m f headers (n + 1)).Follows (leaseProtocol cfg) (.leased m t (.counted n))
      fun _ => Inside m t := by
  refine inside_seq ⟨rfl, n, rfl, rfl, hn⟩ (by simp) fun _ => ?_
  refine inside_seq trivial (by simp) fun now => ?_
  refine inside_seq rfl (by simp) fun _ => ?_
  refine (upstreamCall_follows headers).bind (fun _ _ h => h) ?_
  rintro o _ ⟨stage, rfl⟩
  split
  next => exact ack_follows
  next =>
    split
    next => exact deadLetter_follows _ _
    next => exact ⟨stage, rfl⟩

theorem attemptsOf_follows : (attemptsOf m).Follows (leaseProtocol cfg) (.leased m t .fresh)
    fun r φ => match r with
      | .ok n => φ = .leased m t (.counted n)
      | .error _ => Inside m t φ :=
  ⟨rfl, fun r => by cases r with
    | ok raw => exact rfl
    | error e => exact ⟨_, rfl⟩⟩

theorem deliverDue_follows : (deliverDue cfg m f).Follows (leaseProtocol cfg)
    (.leased m t .fresh) fun _ => Inside m t := by
  refine attemptsOf_follows.bind (fun _ _ h => h) ?_
  rintro n _ rfl
  simp only
  split
  next => exact ⟨_, rfl⟩
  next =>
    split
    next headers service _ _ =>
      refine inside_seq trivial (by simp) fun now => ?_
      split
      next => exact ⟨_, rfl⟩
      next timestamp _ =>
        split
        next => exact deadLetter_follows _ _
        next h =>
          refine replay_follows headers ?_
          simp only [Bool.or_eq_true, decide_eq_true_eq, not_or, Nat.not_lt] at h
          exact h.2
    next => exact ⟨_, rfl⟩

theorem deliver_follows : (deliver cfg m f).Follows (leaseProtocol cfg)
    (.leased m t .fresh) fun _ => Inside m t := by
  refine inside_seq rfl (by simp) fun due => ?_
  cases due with
  | none => exact deliverDue_follows
  | some due =>
    refine inside_seq trivial (by simp) fun now => ?_
    split
    next => exact ⟨_, rfl⟩
    next => exact deliverDue_follows

theorem bury_follows : (bury cfg m f).Follows (leaseProtocol cfg) (.leased m t stage)
    fun _ => Inside m t := by
  have hattempts : (attemptsOf m).Follows (leaseProtocol cfg) (.leased m t stage)
      fun _ => Inside m t :=
    inside_seq rfl (by simp) fun _ => inside_next (c := .hgetAttempts m) (by simp)
  refine hattempts.bind (fun _ _ h => h) ?_
  rintro n _ ⟨stage, rfl⟩
  exact deadLetter_follows _ _

theorem releaseLock_follows : (releaseLock m t).Follows (leaseProtocol cfg)
    (.leased m t stage) fun _ φ => φ = .free := by
  refine Prog.Follows.except (Q := fun _ φ => φ = Phase.free)
    (Prog.Follows.issue ⟨rfl, rfl⟩ fun _ => rfl) (fun _ _ h => h) ?_
  rintro e _ rfl
  by_cases he : e = .redisError
  · simp only [he, if_pos]
    rfl
  · simp only [if_neg he]
    rfl

theorem acquireLock_follows : (acquireLock m cfg.settings.queueClaimIdleSeconds).Follows
    (leaseProtocol cfg) .free fun r φ => match r with
      | .ok (some t) => φ = .leased m t .fresh
      | _ => φ = .free := by
  refine ⟨trivial, fun r => ?_⟩
  cases r with
  | error e => exact rfl
  | ok t =>
    refine ⟨rfl, fun r => ?_⟩
    cases r with
    | error e =>
      by_cases he : e = .redisError
      · simp only [he, if_pos, Prog.except, Prog.bind, Option.getD]
        rfl
      · simp only [if_neg he, Prog.except, Prog.bind, Option.getD]
        rfl
    | ok acquired => cases acquired <;> exact rfl

/-- A lease is given back however the work under it ends. -/
theorem handle_follows : (handle cfg m f).Follows (leaseProtocol cfg) .free
    fun _ φ => φ = .free := by
  refine acquireLock_follows.bind (fun _ _ h => h) fun lease φ h => ?_
  cases lease with
  | none => exact h
  | some t =>
    obtain rfl : φ = .leased m t .fresh := h
    refine Prog.Follows.finally_ (Q := fun _ => Inside m t) ?_ ?_
    · refine deliver_follows.except (fun _ _ h => h) ?_
      rintro e _ ⟨stage, rfl⟩
      by_cases he : isMalformed e = true
      · simp only [he, if_pos]
        exact bury_follows
      · simp only [he]
        exact ⟨stage, rfl⟩
    · rintro r _ ⟨stage, rfl⟩
      exact releaseLock_follows.mono fun r φ h => by cases r <;> exact h

/-- One command in front of what goes on outside any lease. -/
theorem free_seq {c : Cmd} {α : Type} {k : Ans c → Prog α} {Q : Except Exc α → Phase → Prop}
    (hallow : Phase.allows (maxAttempts cfg) .free c) (hc : c ≠ .tokenHex)
    (herror : ∀ e, Q (.error e) .free)
    (hk : ∀ a, (k a).Follows (leaseProtocol cfg) .free Q) :
    (Prog.bind (await c) k).Follows (leaseProtocol cfg) .free Q := by
  have hnext : ∀ r, Phase.next .free c r = .free := by
    intro r
    cases c <;> first | rfl | exact absurd rfl hc
  have hcmd : (await c).Follows (leaseProtocol cfg) .free fun _ φ => φ = .free :=
    Prog.Follows.issue hallow hnext
  refine hcmd.bind ?_ ?_
  · rintro e _ rfl
    exact herror e
  · rintro a _ rfl
    exact hk a

theorem tick_follows : (tick cfg).Follows (leaseProtocol cfg) .free fun _ φ => φ = .free := by
  have hbatch : ∀ {β : Type} {h : β → Prog Unit} (bs : List β),
      (∀ b, (h b).Follows (leaseProtocol cfg) .free fun _ φ => φ = .free) →
      (Prog.forEach h bs).Follows (leaseProtocol cfg) .free fun _ φ => φ = .free :=
    fun bs hh => Prog.Follows.forEach rfl fun b _ => (hh b).mono fun r φ h => by cases r <;> exact h
  refine free_seq trivial (by simp) (fun _ => rfl) fun new => ?_
  refine (hbatch new fun e => handle_follows).bind (fun _ _ h => h) ?_
  rintro _ _ rfl
  refine free_seq trivial (by simp) (fun _ => rfl) fun cursor => ?_
  refine free_seq trivial (by simp) (fun _ => rfl) fun claimed => ?_
  refine free_seq trivial (by simp) (fun _ => rfl) fun _ => ?_
  refine hbatch claimed.2 fun e => ?_
  obtain ⟨m, fields⟩ := e
  cases fields with
  | none => exact rfl
  | some f => exact handle_follows

theorem round_follows : (round cfg).Follows (leaseProtocol cfg) .free fun _ φ => φ = .free := by
  have hgroup : ensureGroup.Follows (leaseProtocol cfg) .free fun _ φ => φ = .free :=
    free_seq trivial (by simp) (fun _ => rfl) fun _ => rfl
  have hbody : (do ensureGroup; tick cfg : Prog Unit).Follows (leaseProtocol cfg) .free
      fun _ φ => φ = .free := by
    refine hgroup.bind (fun _ _ h => h) ?_
    rintro _ _ rfl
    exact tick_follows
  have hguarded : (Prog.except (do ensureGroup; tick cfg : Prog Unit)
      fun e => if e = .cancelled then none else some (.ret ())).Follows (leaseProtocol cfg) .free
      fun _ φ => φ = .free := by
    refine hbody.except (fun _ _ h => h) ?_
    rintro e _ rfl
    by_cases he : e = .cancelled
    · simp only [he, if_pos]
      rfl
    · simp only [if_neg he]
      rfl
  exact hguarded.bind (fun _ _ h => h) fun _ _ h => h

theorem enqueueWrite_follows (w : Write) :
    (enqueueWrite cfg w).Follows (leaseProtocol cfg) .free fun _ φ => φ = .free := by
  unfold enqueueWrite
  split
  next =>
    refine free_seq trivial (by simp) (fun _ => rfl) fun now => ?_
    refine free_seq trivial (by simp) (fun _ => rfl) fun result => ?_
    cases result <;> exact rfl
  next => exact rfl

/-- Every task starts without a lease and ends without one. -/
theorem boot_follows {writes : Nat → Write} : (boot cfg writes i).Follows (leaseProtocol cfg)
    .free fun _ φ => φ = .free := by
  cases i with
  | worker n => exact round_follows
  | client n => exact (enqueueWrite_follows (writes n)).bind (fun _ _ h => h) fun _ _ h => h

theorem again_follows {r : Except Exc (Option EntryId)} {p : Prog (Option EntryId)}
    (h : again cfg i r = some p) : p.Follows (leaseProtocol cfg) .free fun _ φ => φ = .free := by
  cases i with
  | worker n =>
    cases r with
    | ok a =>
      cases h
      exact round_follows
    | error e => cases h
  | client n => cases h

end Follows

/-! ## Who holds what -/

def World.heldBy (s : World) (i : Thread) : List Held := s.held.filter fun h => h.thread = i

theorem mem_heldBy {h : Held} : h ∈ s.heldBy i ↔ h ∈ s.held ∧ h.thread = i := by
  simp [World.heldBy]

theorem tokenOf_eq {t : Token} (h : s.heldBy i = [⟨i, m, t⟩]) : s.tokenOf i m = some t := by
  have hfind : (s.held.find? fun h => h.thread = i ∧ h.id = m) =
      (s.heldBy i).find? fun h => h.id = m := by
    simp [World.heldBy, List.find?_filter]
  rw [World.tokenOf, hfind, h]
  simp

/-- What the held leases become when a command of thread `i` comes back. -/
def heldAfter (i : Thread) (held : List Held) : (c : Cmd) → Except Exc (Ans c) → List Held
  | .setNx m t _, .ok true => ⟨i, m, t⟩ :: held
  | .getDel m t, _ => held.filter fun h => h ≠ ⟨i, m, t⟩
  | _, _ => held

theorem perform_held {c : Cmd} {a : Option UpstreamAnswer} {o : Except Exc (Ans c)}
    (h : perform i a s c = some (o, s')) : s'.held = s.held ∧ s.nextSerial ≤ s'.nextSerial := by
  cases c with
  | xadd | xgroupCreate | setNx | recv | commit =>
    simp only [perform] at h
    split at h <;> cases h <;> exact ⟨rfl, Nat.le_refl _⟩
  | xreadgroup | xautoclaim =>
    simp only [perform] at h
    split at h
    next => cases h; exact ⟨rfl, Nat.le_refl _⟩
    next => split at h <;> cases h <;> exact ⟨rfl, Nat.le_refl _⟩
  | getDel m t =>
    simp only [perform] at h
    split at h
    next => split at h <;> cases h <;> exact ⟨rfl, Nat.le_refl _⟩
    next => cases h; exact ⟨rfl, Nat.le_refl _⟩
  | tokenHex => cases h; exact ⟨rfl, Nat.le_succ _⟩
  | _ => cases h; exact ⟨rfl, Nat.le_refl _⟩

theorem noteReply_held (c : Cmd) (r : Except Exc (Ans c)) :
    (noteReply i s c r).held = heldAfter i s.held c r := by
  unfold noteReply heldAfter
  split <;> simp

theorem exec_held {c : Cmd} {ch : Choice} {r : Except Exc (Ans c)}
    (h : exec i c ch s = some (r, s')) : s'.held = heldAfter i s.held c r := by
  obtain ⟨e, -, -, rfl⟩ | ⟨a, o, s₁, -, hp, -, rfl⟩ := exec_cases h
  · exact noteReply_held c r
  · rw [noteReply_held, (perform_held hp).1]

theorem exec_nextSerial {c : Cmd} {ch : Choice} {r : Except Exc (Ans c)}
    (h : exec i c ch s = some (r, s')) : s.nextSerial ≤ s'.nextSerial := by
  obtain ⟨e, -, -, rfl⟩ | ⟨a, o, s₁, -, hp, -, rfl⟩ := exec_cases h
  · simp
  · simpa using (perform_held hp).2

/-- Only the thread itself changes what it holds. -/
theorem exec_heldBy_other {c : Cmd} {ch : Choice} {r : Except Exc (Ans c)} {j : Thread}
    (hij : i ≠ j) (h : exec i c ch s = some (r, s')) : s'.heldBy j = s.heldBy j := by
  rw [World.heldBy, World.heldBy, exec_held h]
  unfold heldAfter
  split
  next => simp [hij]
  next m t _ =>
    rw [List.filter_filter]
    refine List.filter_congr fun x _ => ?_
    by_cases hx : x.thread = j
    · have hne : x ≠ ⟨i, m, t⟩ := by
        rintro rfl
        exact hij hx
      simp [hx, hne]
    · simp [hx]
  next => rfl

theorem perform_lock {c : Cmd} {a : Option UpstreamAnswer} {o : Except Exc (Ans c)}
    (hset : ∀ m t n, c ≠ .setNx m t n) (hdel : ∀ m t, c ≠ .getDel m t)
    (h : perform i a s c = some (o, s')) : s'.lock = s.lock := by
  cases c with
  | setNx m t n => exact absurd rfl (hset m t n)
  | getDel m t => exact absurd rfl (hdel m t)
  | xadd | xgroupCreate | recv | commit =>
    simp only [perform] at h
    split at h <;> cases h <;> rfl
  | xreadgroup | xautoclaim =>
    simp only [perform] at h
    split at h
    next => cases h; rfl
    next => split at h <;> cases h <;> rfl
  | _ => cases h; rfl

/-- Everything a command can do to the leases.  A lease may be set whose owner
never learns of it, because the reply was lost. -/
theorem exec_lease {c : Cmd} {ch : Choice} {r : Except Exc (Ans c)}
    (h : exec i c ch s = some (r, s')) :
    (s'.lock = s.lock ∧ (s'.held = s.held ∨
      ∃ m t, c = .getDel m t ∧ s'.held = s.held.filter fun h => h ≠ ⟨i, m, t⟩)) ∨
    (∃ m t n, c = .setNx m t n ∧ s.lock m = none ∧
      s'.lock = Function.update s.lock m (some ⟨t, s.now + seconds n⟩) ∧
      (s'.held = s.held ∨ s'.held = ⟨i, m, t⟩ :: s.held)) ∨
    (∃ m t l, c = .getDel m t ∧ s.lock m = some l ∧ l.token = t ∧
      s'.lock = Function.update s.lock m none ∧
      s'.held = s.held.filter fun h => h ≠ ⟨i, m, t⟩) := by
  have hheld := exec_held h
  cases c with
  | setNx m t n =>
    have hnote : ∀ r, r ≠ .ok true → heldAfter i s.held (.setNx m t n) r = s.held := by
      intro r hr
      cases r with
      | error e => rfl
      | ok b =>
        cases b with
        | false => rfl
        | true => exact absurd rfl hr
    obtain ⟨e, -, rfl, rfl⟩ | ⟨a, o, s₁, -, hp, ho, rfl⟩ := exec_cases h
    · exact Or.inl ⟨by simp, Or.inl hheld⟩
    · simp only [perform] at hp
      split at hp
      next =>
        cases hp
        refine Or.inl ⟨by simp, Or.inl (hheld.trans (hnote r ?_))⟩
        rcases ho with rfl | ⟨e, rfl, -⟩ <;> simp
      next hl =>
        cases hp
        refine Or.inr (Or.inl ⟨m, t, n, rfl, hl, by simp, ?_⟩)
        by_cases hr : r = .ok true
        · subst hr
          exact Or.inr hheld
        · exact Or.inl (hheld.trans (hnote r hr))
  | getDel m t =>
    obtain ⟨e, -, -, rfl⟩ | ⟨a, o, s₁, -, hp, -, rfl⟩ := exec_cases h
    · exact Or.inl ⟨by simp, Or.inr ⟨m, t, rfl, hheld⟩⟩
    · simp only [perform] at hp
      split at hp
      next l hl =>
        split at hp
        next ht =>
          cases hp
          exact Or.inr (Or.inr ⟨m, t, l, rfl, hl, ht, by simp, hheld⟩)
        next =>
          cases hp
          exact Or.inl ⟨by simp, Or.inr ⟨m, t, rfl, hheld⟩⟩
      next =>
        cases hp
        exact Or.inl ⟨by simp, Or.inr ⟨m, t, rfl, hheld⟩⟩
  | _ =>
    refine Or.inl ⟨?_, Or.inl hheld⟩
    exact exec_keeps (J := fun u => u.lock = s.lock) (fun _ _ h => by simpa using h)
      (fun _ _ _ hp => perform_lock (by simp) (by simp) hp) rfl h

/-! ## The leases of live tasks are exclusive -/

/-- Every held token was drawn by its holder, and the leases that `live` picks out
are still in Redis. -/
structure Leases (live : World → Held → Prop) (s : World) : Prop where
  owned : ∀ h ∈ s.held, h.token.owner = h.thread
  issued : ∀ h ∈ s.held, h.token.serial < s.nextSerial
  locked : ∀ h ∈ s.held, live s h → ∃ l, s.lock h.id = some l ∧ l.token = h.token

section Leases

variable {live : World → Held → Prop}

theorem leases_start : Leases live {} :=
  ⟨by simp, by simp, by simp⟩

theorem Leases.exclusive (hs : Leases live s) {h h' : Held} (hh : h ∈ s.held) (hh' : h' ∈ s.held)
    (hl : live s h) (hl' : live s h') (hid : h.id = h'.id) : h.thread = h'.thread := by
  obtain ⟨l, hlock, ht⟩ := hs.locked h hh hl
  obtain ⟨l', hlock', ht'⟩ := hs.locked h' hh' hl'
  rw [hid, hlock'] at hlock
  cases hlock
  rw [← hs.owned h hh, ← hs.owned h' hh', ← ht, ← ht']

/-- What a phase says about the leases of its thread. -/
def Phase.Holds (i : Thread) : Phase → World → Prop
  | .free, s => s.heldBy i = []
  | .drawn t, s => s.heldBy i = [] ∧ t.owner = i ∧ t.serial < s.nextSerial
  | .leased m t _, s => s.heldBy i = [⟨i, m, t⟩]

theorem heldBy_congr (h : s'.held = s.held) : s'.heldBy i = s.heldBy i := by
  rw [World.heldBy, World.heldBy, h]

/-- Each command the protocol allows makes the reading of the next phase true. -/
theorem exec_holds {limit : Nat} {φ : Phase} {c : Cmd} {ch : Choice} {r : Except Exc (Ans c)}
    (hallow : φ.allows limit c) (hs : φ.Holds i s) (h : exec i c ch s = some (r, s')) :
    (φ.next c r).Holds i s' := by
  have hheld := exec_held h
  cases φ with
  | free =>
    have hfree : s.heldBy i = [] := hs
    cases c with
    | tokenHex =>
      cases r with
      | error e => exact (heldBy_congr hheld).trans hfree
      | ok t =>
        obtain ⟨u, s₁, hp, rfl⟩ := exec_ok h
        cases hp
        exact ⟨hfree, rfl, Nat.lt_succ_self _⟩
    | time | cursor | setCursor | xgroupCreate | xadd | xreadgroup | xautoclaim =>
      exact (heldBy_congr hheld).trans hfree
    | _ => exact hallow.elim
  | drawn t =>
    obtain ⟨hfree, -, -⟩ := hs
    cases c with
    | setNx m t' n =>
      cases hallow
      cases r with
      | error e => exact (heldBy_congr hheld).trans hfree
      | ok b =>
        cases b with
        | false => exact (heldBy_congr hheld).trans hfree
        | true =>
          have hcons : s'.heldBy i = ⟨i, m, t⟩ :: s.heldBy i := by
            rw [World.heldBy, hheld]
            simp [heldAfter, World.heldBy]
          exact hcons.trans (congrArg _ hfree)
    | _ => exact hallow.elim
  | leased m t stage =>
    have hone : s.heldBy i = [⟨i, m, t⟩] := hs
    by_cases hc : ∃ m t, c = .getDel m t
    · obtain ⟨m', t', rfl⟩ := hc
      obtain ⟨rfl, rfl⟩ := hallow
      have hnil : s'.heldBy i = (s.heldBy i).filter fun h => h ≠ ⟨i, m', t'⟩ := by
        rw [World.heldBy, hheld]
        simp only [heldAfter, World.heldBy, List.filter_filter]
        exact List.filter_congr fun x _ => Bool.and_comm _ _
      rw [hone] at hnil
      change s'.heldBy i = []
      simpa using hnil
    · have hc' : ∀ m t, c ≠ .getDel m t := fun m t h => hc ⟨m, t, h⟩
      have hinside : Inside m t (Phase.next (.leased m t stage) c r) := inside_next hc'
      obtain ⟨stage', hnext⟩ := hinside
      rw [hnext]
      refine (heldBy_congr (hheld.trans ?_)).trans hone
      cases c <;> first | rfl | exact absurd rfl (hc' _ _) | exact hallow.elim

theorem exec_leases {limit : Nat} {φ : Phase} {c : Cmd} {ch : Choice} {r : Except Exc (Ans c)}
    (hI : Leases live s) (hallow : φ.allows limit c) (hs : φ.Holds i s)
    (hlive : ∀ h ∈ s.held, live s' h → live s h) (h : exec i c ch s = some (r, s')) :
    Leases live s' := by
  have hserial := exec_nextSerial h
  obtain ⟨hlock, hheld⟩ | ⟨m, t, n, rfl, hnone, hlock, hheld⟩ |
    ⟨m, t, l, rfl, hl, ht, hlock, hheld⟩ := exec_lease h
  · have hsub : s'.held ⊆ s.held := by
      rcases hheld with hheld | ⟨m, t, -, hheld⟩ <;> rw [hheld]
      · exact List.Subset.refl _
      · exact List.filter_subset_self _
    refine ⟨fun x hx => hI.owned x (hsub hx),
      fun x hx => Nat.lt_of_lt_of_le (hI.issued x (hsub hx)) hserial, fun x hx hxl => ?_⟩
    rw [hlock]
    exact hI.locked x (hsub hx) (hlive x (hsub hx) hxl)
  · -- A free lease is set, so nobody live held it.
    obtain ⟨hown, hissued⟩ : t.owner = i ∧ t.serial < s.nextSerial := by
      cases φ with
      | drawn t' =>
        obtain rfl : t = t' := hallow
        exact ⟨hs.2.1, hs.2.2⟩
      | free => exact hallow.elim
      | leased => exact hallow.elim
    have hold : ∀ x ∈ s.held, live s' x → ∃ l, s'.lock x.id = some l ∧ l.token = x.token := by
      intro x hx hxl
      obtain ⟨l, hl, htok⟩ := hI.locked x hx (hlive x hx hxl)
      have hne : x.id ≠ m := by
        rintro rfl
        rw [hnone] at hl
        cases hl
      exact ⟨l, by rw [hlock, Function.update_of_ne hne, hl], htok⟩
    have hmem : ∀ x ∈ s'.held, x ∈ s.held ∨ x = ⟨i, m, t⟩ := by
      intro x hx
      rcases hheld with hheld | hheld <;> rw [hheld] at hx
      · exact Or.inl hx
      · exact (List.mem_cons.mp hx).symm
    refine ⟨fun x hx => ?_, fun x hx => ?_, fun x hx hxl => ?_⟩ <;>
      rcases hmem x hx with hx | rfl
    · exact hI.owned x hx
    · exact hown
    · exact Nat.lt_of_lt_of_le (hI.issued x hx) hserial
    · exact Nat.lt_of_lt_of_le hissued hserial
    · exact hold x hx hxl
    · exact ⟨_, by rw [hlock, Function.update_self], rfl⟩
  · -- Only the holder of the token gives the lease back.
    obtain ⟨hin, hown⟩ : (⟨i, m, t⟩ : Held) ∈ s.held ∧ t.owner = i := by
      cases φ with
      | leased m' t' stage =>
        obtain ⟨rfl, rfl⟩ := hallow
        have hone : s.heldBy i = [⟨i, m, t⟩] := hs
        have hin := (mem_heldBy.mp (hone ▸ List.mem_singleton_self _)).1
        exact ⟨hin, hI.owned _ hin⟩
      | free => exact hallow.elim
      | drawn => exact hallow.elim
    have hmem : ∀ x ∈ s'.held, x ∈ s.held ∧ x ≠ ⟨i, m, t⟩ := by
      intro x hx
      rw [hheld] at hx
      simpa using hx
    refine ⟨fun x hx => hI.owned x (hmem x hx).1,
      fun x hx => Nat.lt_of_lt_of_le (hI.issued x (hmem x hx).1) hserial, fun x hx hxl => ?_⟩
    obtain ⟨hx, hne⟩ := hmem x hx
    obtain ⟨l', hl', htok⟩ := hI.locked x hx (hlive x hx hxl)
    have hid : x.id ≠ m := by
      rintro rfl
      rw [hl] at hl'
      cases hl'
      have hthread : x.thread = i := by rw [← hI.owned x hx, ← htok, ht, hown]
      have htoken : x.token = t := htok.symm.trans ht
      exact hne (by rw [← hthread, ← htoken])
    exact ⟨l', by rw [hlock, Function.update_of_ne hid, hl'], htok⟩

/-- Time keeps the leases if it does not run out on a live one. -/
theorem Leases.advance {d : Time} (hI : Leases live s)
    (hlive : ∀ h ∈ s.held, live (advance d s) h → live s h)
    (hrun : ∀ h ∈ s.held, live s h → ∀ l, s.lock h.id = some l → l.token = h.token →
      s.now + d < l.expires) : Leases live (advance d s) := by
  refine ⟨hI.owned, hI.issued, fun h hh hl => ?_⟩
  obtain ⟨l, hlock, ht⟩ := hI.locked h hh (hlive h hh hl)
  refine ⟨l, ?_, ht⟩
  simp [Queue.advance, hlock, hrun h hh (hlive h hh hl) l hlock ht]

theorem Leases.dropThread (hI : Leases live s)
    (hlive : ∀ h ∈ s.held, live (dropThread i s) h → live s h) : Leases live (dropThread i s) := by
  have hsub : (Queue.dropThread i s).held ⊆ s.held := List.filter_subset_self _
  exact ⟨fun h hh => hI.owned h (hsub hh), fun h hh => hI.issued h (hsub hh),
    fun h hh hl => hI.locked h (hsub hh) (hlive h (hsub hh) hl)⟩

theorem heldBy_dropThread {j : Thread} (hij : i ≠ j) :
    (dropThread i s).heldBy j = s.heldBy j := by
  simp only [World.heldBy, dropThread, List.filter_filter]
  refine List.filter_congr fun x _ => ?_
  by_cases hx : x.thread = j
  · simp [hx, Ne.symm hij]
  · simp [hx]

end Leases

end Queue
end AdaptiveGateway
