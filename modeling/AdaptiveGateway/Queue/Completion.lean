/-
Replays after completion.

A worker fetches a batch and handles it entry by entry from its own copy of the
fields, so another worker can claim an entry of the batch, finish it and give
its lease back before the first one gets to it.  Nothing between the lease and
the request looks whether the entry still exists.  If it does exist whenever a
lease is taken, then it stays until the holder itself deletes it, and no request
follows the end of `_ack`.
-/
import AdaptiveGateway.Queue.Lease

namespace AdaptiveGateway
namespace Queue

open Codec Concurrent

variable {i : Thread} {s s' : World} {m : EntryId} {cfg : Config} {writes : Nat → Write}

/-- No request for an entry was issued after some `_ack` of it had come to its
end.  The log lists later events first. -/
def NoReplayAfterAck (log : List Event) : Prop :=
  log.Pairwise fun later earlier =>
    ∀ m t req, later = .sent m t req → earlier ≠ .acked m

/-- No worker crashes, and no lease runs out while it is held. -/
def calm : Guard Thread Cmd World Choice Time where
  act _ _ _ _ := True
  crash _ _ := False
  env d s := ∀ h ∈ s.held, ∀ l, s.lock h.id = some l → l.token = h.token →
    s.now + d < l.expires

/-- The command takes the free lease of entry `m`, and its caller learns so. -/
def Acquires (c : Cmd) (ch : Choice) (s : World) (m : EntryId) : Prop :=
  (∃ t n, c = .setNx m t n) ∧ s.lock m = none ∧ ∀ e, ch ≠ .refuse e ∧ ch ≠ .lost e

/-- Calm, and whenever a lease is taken its entry is still in the stream. -/
def calmAndPresent : Guard Thread Cmd World Choice Time where
  act _ c ch s := ∀ m, Acquires c ch s m → s.has m = true
  crash := calm.crash
  env := calm.env

/-! ## Commands and presence -/

theorem exec_lastId {c : Cmd} {ch : Choice} {r : Except Exc (Ans c)}
    (h : exec i c ch s = some (r, s')) : s.lastId ≤ s'.lastId := by
  refine exec_keeps (J := fun u => s.lastId ≤ u.lastId) (fun _ _ h => by simpa using h)
    (fun a o u hp => ?_) (Nat.le_refl _) h
  obtain ⟨-, h2, -⟩ | ⟨-, -, h2, -⟩ | ⟨-, -, -, -, h2, -⟩ | ⟨-, -, -, -, h2, -⟩ |
    ⟨-, -, -, -, -, -, h2, -⟩ | ⟨-, -, -, h2, -⟩ | ⟨-, -, -, h2, -⟩ := perform_stream hp <;> rw [h2]
  exact Nat.le_succ _

/-- Old entries come and go only by deletion. -/
theorem exec_has {c : Cmd} {ch : Choice} {r : Except Exc (Ans c)} (hc : c ≠ .xdel m)
    (hm : m ≤ s.lastId) (h : exec i c ch s = some (r, s')) : s'.has m = s.has m := by
  refine exec_keeps (J := fun u => u.has m = s.has m)
    (fun u r hu => by rw [World.has, noteReply_stream]; exact hu) (fun a o u hp => ?_) rfl h
  obtain ⟨h1, -⟩ | ⟨-, h1, -⟩ | ⟨d, f, -, h1, -⟩ | ⟨-, -, -, h1, -⟩ | ⟨-, -, -, -, -, h1, -⟩ |
    ⟨-, -, h1, -⟩ | ⟨m', hm', h1, -⟩ := perform_stream hp <;> rw [World.has, World.has, h1]
  · have hne : ¬s.lastId + 1 = m := by
      intro heq
      exact Nat.not_succ_le_self _ (heq ▸ hm)
    simp [hne]
  · have hne : m' ≠ m := by
      intro heq
      exact hc (heq ▸ hm')
    rw [List.any_filter]
    congr 1
    funext e
    by_cases he : e.1 = m
    · simp [he, Ne.symm hne]
    · simp [he]

theorem exec_xdel {ch : Choice} {a : Ans (.xdel m)} (h : exec i (.xdel m) ch s = some (.ok a, s')) :
    s'.has m = false := by
  obtain ⟨u, s₁, hp, rfl⟩ := exec_ok h
  cases hp
  simp [World.has]

theorem exec_setNx {t : Token} {n : Nat} {ch : Choice}
    (h : exec i (.setNx m t n) ch s = some (.ok true, s')) :
    Acquires (.setNx m t n) ch s m := by
  have hok : ∀ u, (perform i u s (.setNx m t n)).map
      (fun o => (o.1, noteReply i o.2 _ o.1)) = some (.ok true, s') → s.lock m = none := by
    intro u hu
    simp only [perform] at hu
    split at hu
    next => cases hu
    next hl => exact hl
  cases ch with
  | ok => exact ⟨⟨t, n, rfl⟩, hok _ h, by simp⟩
  | answer a => exact ⟨⟨t, n, rfl⟩, hok _ h, by simp⟩
  | refuse e => simp [exec] at h
  | lost e =>
    simp only [exec] at h
    split at h
    next =>
      obtain ⟨o, -, ho⟩ := Option.map_eq_some_iff.mp h
      cases ho
    next => cases h

/-! ## The invariant -/

/-- Every held lease is in Redis, completed entries are gone for good, and none of
them has been sent again. -/
structure Completed (s : World) : Prop extends Leases (fun _ _ => True) s, Ordered s where
  gone : ∀ m, Event.acked m ∈ s.log → s.has m = false ∧ m ≤ s.lastId
  silent : NoReplayAfterAck s.log

theorem completed_start : Completed {} where
  toLeases := leases_start
  toOrdered := ordered_start
  gone := by simp
  silent := List.Pairwise.nil

/-- What a stage says about the presence of its entry. -/
def Stage.Presence (m : EntryId) : Stage → World → Prop
  | .fresh, s | .counted _, s | .spent, s => s.has m = true
  | .closed, _ | .acked, _ => True
  | .deleted, s => s.has m = false

def Phase.Presence : Phase → World → Prop
  | .free, _ | .drawn _, _ => True
  | .leased m _ stage, s => m ≤ s.lastId ∧ stage.Presence m s

theorem Stage.Presence.congr {stage : Stage} (h : stage.Presence m s)
    (hhas : s'.has m = s.has m) : stage.Presence m s' := by
  cases stage <;> first | trivial | exact hhas.trans h

/-- What thread `i` may rely on: the entries it has leased stay as they are. -/
structure Undeleted (i : Thread) (s s' : World) : Prop where
  held : s'.heldBy i = s.heldBy i
  serial : s.nextSerial ≤ s'.nextSerial
  lastId : s.lastId ≤ s'.lastId
  has : ∀ h ∈ s.heldBy i, h.id ≤ s.lastId → s'.has h.id = s.has h.id

theorem Undeleted.refl (i : Thread) (s : World) : Undeleted i s s :=
  ⟨rfl, Nat.le_refl _, Nat.le_refl _, fun _ _ _ => rfl⟩

theorem Undeleted.trans {u : World} (h : Undeleted i s s') (h' : Undeleted i s' u) :
    Undeleted i s u := by
  refine ⟨h'.held.trans h.held, Nat.le_trans h.serial h'.serial,
    Nat.le_trans h.lastId h'.lastId, fun x hx hid => ?_⟩
  rw [h'.has x (h.held ▸ hx) (Nat.le_trans hid h.lastId), h.has x hx hid]

/-- What thread `i` does to the others: it deletes only what it has leased. -/
structure DeletesLeased (i : Thread) (s s' : World) : Prop where
  held : ∀ j, i ≠ j → s'.heldBy j = s.heldBy j
  serial : s.nextSerial ≤ s'.nextSerial
  lastId : s.lastId ≤ s'.lastId
  has : ∀ m, m ≤ s.lastId → s'.has m = s.has m ∨ ∃ h ∈ s.heldBy i, h.id = m

theorem DeletesLeased.undeleted {j : Thread} (hs : Completed s) (hij : i ≠ j)
    (h : DeletesLeased i s s') : Undeleted j s s' := by
  refine ⟨h.held j hij, h.serial, h.lastId, fun x hx hid => ?_⟩
  rcases h.has x.id hid with heq | ⟨y, hy, hyid⟩
  · exact heq
  · -- Two holders of one entry would have to be the same thread.
    obtain ⟨hx, hxj⟩ := mem_heldBy.mp hx
    obtain ⟨hy, hyi⟩ := mem_heldBy.mp hy
    exact absurd (hyi.symm.trans ((hs.exclusive hy hx trivial trivial hyid).trans hxj)) hij

theorem Phase.Presence.stable {φ : Phase} (hs : φ.Holds i s) (hp : φ.Presence s)
    (h : Undeleted i s s') : φ.Holds i s' ∧ φ.Presence s' := by
  cases φ with
  | free => exact ⟨h.held.trans hs, trivial⟩
  | drawn t =>
    exact ⟨⟨h.held.trans hs.1, hs.2.1, Nat.lt_of_lt_of_le hs.2.2 h.serial⟩, trivial⟩
  | leased m t stage =>
    have hone : s.heldBy i = [⟨i, m, t⟩] := hs
    refine ⟨h.held.trans hone, Nat.le_trans hp.1 h.lastId, hp.2.congr ?_⟩
    exact h.has _ (hone ▸ List.mem_singleton_self _) hp.1

/-! ## One command -/

section Step

variable {limit : Nat} {φ : Phase} {c : Cmd} {ch : Choice} {r : Except Exc (Ans c)}

/-- Deletions happen under the lease of the entry. -/
theorem exec_deletesLeased (hallow : φ.allows limit c) (hs : φ.Holds i s)
    (h : exec i c ch s = some (r, s')) : DeletesLeased i s s' := by
  refine ⟨fun j hij => exec_heldBy_other hij h, exec_nextSerial h, exec_lastId h, ?_⟩
  intro m hm
  by_cases hc : c = .xdel m
  · subst hc
    cases φ with
    | leased m' t stage =>
      obtain ⟨rfl, -⟩ := hallow
      have hone : s.heldBy i = [⟨i, m, t⟩] := hs
      exact Or.inr ⟨_, hone ▸ List.mem_singleton_self _, rfl⟩
    | free => exact hallow.elim
    | drawn => exact hallow.elim
  · exact Or.inl (exec_has hc hm h)

theorem exec_completed (hI : Completed s) (hallow : φ.allows limit c) (hs : φ.Holds i s)
    (hp : φ.Presence s) (h : exec i c ch s = some (r, s')) : Completed s' := by
  have hstays : ∀ m, s.has m = false → m ≤ s.lastId → s'.has m = false := by
    intro m hm hle
    by_cases hc : c = .xdel m
    · subst hc
      obtain ⟨e, -, -, rfl⟩ | ⟨a, o, s₁, -, hperf, -, rfl⟩ := exec_cases h
      · exact hm
      · cases hperf
        simp [World.has]
    · rw [exec_has hc hle h, hm]
  refine ⟨exec_leases hI.toLeases hallow hs (fun _ _ _ => trivial) h,
    exec_ordered hI.toOrdered h, fun m hm => ?_, ?_⟩
  · have hold : Event.acked m ∈ s.log → s'.has m = false ∧ m ≤ s'.lastId := by
      intro hin
      obtain ⟨hgone, hle⟩ := hI.gone m hin
      exact ⟨hstays m hgone hle, Nat.le_trans hle (exec_lastId h)⟩
    obtain hl | ⟨e, he, hl⟩ := exec_log h <;> rw [hl] at hm
    · exact hold hm
    · rcases List.mem_cons.mp hm with rfl | hm
      · have hc : c = .hdelDue m := he.cmd
        subst hc
        cases φ with
        | leased m' t stage =>
          obtain ⟨rfl, rfl⟩ := hallow
          exact ⟨hstays m hp.2 hp.1, Nat.le_trans hp.1 (exec_lastId h)⟩
        | free => exact hallow.elim
        | drawn => exact hallow.elim
      · exact hold hm
  · obtain hl | ⟨e, he, hl⟩ := exec_log h <;> rw [hl]
    · exact hI.silent
    · refine List.pairwise_cons.mpr ⟨?_, hI.silent⟩
      rintro e' he' m t req rfl rfl
      obtain ⟨rfl, -⟩ := he.cmd
      cases φ with
      | leased m' t stage =>
        obtain ⟨rfl, rfl⟩ := hallow
        have hpresent : s.has m = true := hp.2
        rw [(hI.gone m he').1] at hpresent
        cases hpresent
      | free => exact hallow.elim
      | drawn => exact hallow.elim

theorem exec_presence (hI : Completed s) (hact : calmAndPresent.act i c ch s)
    (hallow : φ.allows limit c) (hp : φ.Presence s) (h : exec i c ch s = some (r, s')) :
    (φ.next c r).Presence s' := by
  cases φ with
  | free => cases c <;> cases r <;> trivial
  | drawn t =>
    cases c with
    | setNx m t' n =>
      cases r with
      | error e => trivial
      | ok b =>
        cases b with
        | false => trivial
        | true =>
          have hin : s.has m = true := hact m (exec_setNx h)
          obtain ⟨f, hf⟩ := has_iff.mp hin
          have hle : m ≤ s.lastId := (hI.bounded _ hf).2
          exact ⟨Nat.le_trans hle (exec_lastId h), (exec_has (by simp) hle h).trans hin⟩
    | _ => exact hallow.elim
  | leased m t stage =>
    obtain ⟨hle, hstage⟩ := hp
    have hle' := Nat.le_trans hle (exec_lastId h)
    by_cases hc : c = .xdel m
    · subst hc
      cases r with
      | error e => exact ⟨hle', trivial⟩
      | ok a => exact ⟨hle', exec_xdel h⟩
    · have hkeep : stage.Presence m s' := hstage.congr (exec_has hc hle h)
      cases c with
      | getDel => trivial
      | hgetAttempts m' => cases r <;> cases stage <;> exact ⟨hle', hkeep⟩
      | hsetAttempts m' n =>
        obtain ⟨rfl, k, rfl, -, -⟩ := hallow
        cases r with
        | error e => exact ⟨hle', trivial⟩
        | ok a => exact ⟨hle', hkeep⟩
      | send => exact ⟨hle', trivial⟩
      | xack => cases r <;> exact ⟨hle', trivial⟩
      | xdel m' => exact absurd (congrArg Cmd.xdel hallow.1) hc
      | _ => exact ⟨hle', hkeep⟩

end Step

/-! ## Runs -/

def completion (cfg : Config) (writes : Nat → Write) :
    Contract (machine cfg writes) calmAndPresent where
  I := Completed
  R := Undeleted
  G := DeletesLeased
  Q i _ s := s.heldBy i = []
  refl := Undeleted.refl
  trans _ _ _ _ := Undeleted.trans
  others _ _ _ _ hij hI _ h := h.undeleted hI hij
  env d s s' hg hI h := by
    cases h
    refine ⟨⟨hI.toLeases.advance (fun _ _ _ => trivial) fun x hx _ => hg x hx,
      hI.toOrdered.congr rfl rfl rfl, hI.gone, hI.silent⟩, fun j => ?_⟩
    exact ⟨rfl, Nat.le_refl _, Nat.le_refl _, fun _ _ _ => rfl⟩
  crash _ _ hg _ := hg.elim

theorem completion_wp {p : Prog (Option EntryId)}
    (hp : p.Follows (leaseProtocol cfg) .free fun _ φ => φ = .free) (hs : s.heldBy i = []) :
    p.wp ((completion cfg writes).pact i) ((completion cfg writes).Q i) s := by
  refine Prog.wp_mono ?_ (Prog.wp_of_follows
    (J := fun (φ : Phase) s => φ.Holds i s ∧ φ.Presence s) hp ?_ ⟨hs, trivial⟩)
  · rintro r t ⟨_, rfl, hfree, -⟩
    exact hfree
  · rintro φ c s r s' hallow ⟨hs, hp⟩ ⟨ch, hact, hI, hexec⟩
    refine ⟨exec_completed hI hallow hs hp hexec, exec_deletesLeased hallow hs hexec,
      fun t _ ht => ?_⟩
    exact Phase.Presence.stable (exec_holds hallow hs hexec)
      (exec_presence hI hact hallow hp hexec) ht

/-- If every lease is taken on an entry that is still in the stream, then nothing
is sent for an entry whose `_ack` has completed. -/
theorem no_replay_after_ack_if_leased_present
    {q : Pool Thread Cmd Ans Exc (Option EntryId) World}
    (hq : (machine cfg writes).Reach calmAndPresent ((machine cfg writes).start {}) q) :
    NoReplayAfterAck q.state.log := by
  refine ((completion cfg writes).sound completed_start ?_ ?_ hq).1.silent
  · intro i t _ ht
    exact completion_wp boot_follows ht.held
  · intro i r p t h _ hfree
    exact completion_wp (again_follows h) hfree

/-! ## Two workers with one batch -/

/-- The mock service with an upstream timeout of 40 seconds. -/
def slowConfig : Config :=
  { mockConfig with settings := { mockSettings with
      upstreamTimeout := seconds 40, claim_gt := by decide } }

/-- No crash, and time never reaches the end of a held lease. -/
def leasesLast (p : Pool Thread Cmd Ans Exc (Option EntryId) World) :
    Label Thread Choice Time → Bool
  | .crash _ => false
  | .env d => p.state.held.all fun h =>
    match p.state.lock h.id with
    | some l => decide (p.state.now + d < l.expires)
    | none => true
  | _ => true

theorem allows_of_leasesLast (p : Pool Thread Cmd Ans Exc (Option EntryId) World)
    (l : Label Thread Choice Time) (h : leasesLast p l = true) : calm.allows p l := by
  cases l with
  | act i ch =>
    simp only [Guard.allows]
    split <;> trivial
  | loop i => trivial
  | crash i => cases h
  | env d =>
    intro lease hlease l hlock _
    have hall := List.all_eq_true.mp h lease hlease
    simpa [hlock] using hall

/-- The same, and a lease is taken on an entry in the stream only. -/
def leasesPresent (p : Pool Thread Cmd Ans Exc (Option EntryId) World) :
    Label Thread Choice Time → Bool
  | .act i _ =>
    match p.prog i with
    | some (.call (.setNx m _ _) _) => p.state.has m
    | _ => true
  | l => leasesLast p l

theorem allows_of_leasesPresent (p : Pool Thread Cmd Ans Exc (Option EntryId) World)
    (l : Label Thread Choice Time) (h : leasesPresent p l = true) : calmAndPresent.allows p l := by
  cases l with
  | act i ch =>
    simp only [Guard.allows]
    split
    next c k hprog =>
      rintro m ⟨⟨t, n, rfl⟩, -⟩
      simpa [leasesPresent, hprog] using h
    next => trivial
  | loop i => trivial
  | crash i => cases h
  | env d => exact allows_of_leasesLast p (.env d) h

def isAcked (m : EntryId) : Event → Bool
  | .acked m' => m' == m
  | _ => false

theorem isAcked_iff {m : EntryId} {e : Event} : isAcked m e = true ↔ e = .acked m := by
  cases e <;> simp [isAcked]

/-- The first request of worker 0 times out.  While its second is under way worker 1 claims
both entries, finishes the first, and finds the second leased. -/
def sharedBatch : List (Label Thread Choice Time) :=
  let done : UpstreamAnswer := ⟨200, Dict.empty, [], []⟩
  steps (.client 0) 2 ++ steps (.client 1) 2 ++
    steps (.worker 0) 11 ++ [.env (seconds 40), .act (.worker 0) (.refuse .timeoutError)] ++
    steps (.worker 0) 10 ++ [.env (seconds 21)] ++
    steps (.worker 1) 15 ++ [.act (.worker 1) (.answer done)] ++ steps (.worker 1) 7 ++
    [.act (.worker 0) (.answer done)] ++ steps (.worker 0) 5

/-- Both workers have both entries in their batches, and each completes the `_ack` of one. -/
theorem no_replay_after_ack_mock :
    let M := machine slowConfig fun _ => mockWrite
    ∃ q, M.Reach calmAndPresent (M.start {}) q ∧ Event.acked 1 ∈ q.state.log ∧
      Event.acked 2 ∈ q.state.log ∧ NoReplayAfterAck q.state.log := by
  intro M
  have hrun : ((M.runIn leasesPresent (M.start {}) sharedBatch).map fun q =>
      (q.state.log.any (isAcked 1), q.state.log.any (isAcked 2))) = some (true, true) := by
    decide +kernel
  obtain ⟨q, hq, hobs⟩ := Option.map_eq_some_iff.mp hrun
  obtain ⟨hfirst, hsecond⟩ := Prod.mk.inj hobs
  have hreach := Machine.reach_of_runIn allows_of_leasesPresent hq
  refine ⟨q, hreach, ?_, ?_, no_replay_after_ack_if_leased_present hreach⟩
  · obtain ⟨e, he, hm⟩ := List.any_eq_true.mp hfirst
    exact isAcked_iff.mp hm ▸ he
  · obtain ⟨e, he, hm⟩ := List.any_eq_true.mp hsecond
    exact isAcked_iff.mp hm ▸ he

/-! ## A stale copy is sent -/

/-- Worker 0 reads three entries.  Its first request times out after 40 seconds;
during the second, worker 1 claims all three, finishes the first and the third,
and finds the second leased.  When the second request has timed out as well,
worker 0 comes to its copy of the third entry. -/
def staleBatch : List (Label Thread Choice Time) :=
  let done : UpstreamAnswer := ⟨200, Dict.empty, [], []⟩
  steps (.client 0) 2 ++ steps (.client 1) 2 ++ steps (.client 2) 2 ++
    steps (.worker 0) 11 ++ [.env (seconds 40), .act (.worker 0) (.refuse .timeoutError)] ++
    steps (.worker 0) 10 ++ [.env (seconds 25)] ++
    steps (.worker 1) 15 ++ [.act (.worker 1) (.answer done)] ++ steps (.worker 1) 16 ++
    [.act (.worker 1) (.answer done)] ++ steps (.worker 1) 5 ++
    [.env (seconds 15), .act (.worker 0) (.refuse .timeoutError)] ++ steps (.worker 0) 10

/-- The last event is a request for an entry that was acknowledged before. -/
def sentAfterAck (m : EntryId) : List Event → Bool
  | .sent m' _ _ :: earlier => m' == m && earlier.any (isAcked m)
  | _ => false

theorem replayed_of_sentAfterAck {m : EntryId} {log : List Event} (h : sentAfterAck m log = true) :
    ¬NoReplayAfterAck log := by
  unfold sentAfterAck at h
  split at h
  next m' t req earlier =>
    obtain ⟨hm, hany⟩ := Bool.and_eq_true_iff.mp h
    obtain rfl := beq_iff_eq.mp hm
    obtain ⟨e, he, hacked⟩ := List.any_eq_true.mp hany
    intro hno
    exact (List.pairwise_cons.mp hno).1 e he m' t req rfl (isAcked_iff.mp hacked)
  next => cases h

theorem stale_copy_replayed_after_ack : ¬∀ cfg writes q,
    (machine cfg writes).Reach calm ((machine cfg writes).start {}) q →
      NoReplayAfterAck q.state.log := by
  intro hall
  have hrun : (((machine slowConfig fun _ => mockWrite).runIn leasesLast
      ((machine slowConfig fun _ => mockWrite).start {}) staleBatch).map
      fun q => sentAfterAck 3 q.state.log) = some true := by decide +kernel
  obtain ⟨q, hq, hobs⟩ := Option.map_eq_some_iff.mp hrun
  exact replayed_of_sentAfterAck hobs (hall _ _ q (Machine.reach_of_runIn allows_of_leasesLast hq))

end Queue
end AdaptiveGateway
