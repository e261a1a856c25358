/-
One background refresh of a stale page at a time.

The lock of a key lives for the longer of a configured time and the whole seconds of
the upstream timeout plus five.  A refresh that has its request on the way within
four seconds gets its answer, or gives it up, before the lock can have expired; and
only the refresh itself, with its own token, can delete the lock before that.

The history of a run notes when each read tried to set the lock, when its refresh
asked the upstream, and what the upstream replied.
-/
import AdaptiveGateway.Concurrent.Phases
import AdaptiveGateway.Proxy.Isolation
import AdaptiveGateway.Proxy.Revalidation

namespace AdaptiveGateway
namespace Proxy
namespace Cache

open Codec Concurrent

/-! ## The history -/

/-- What is noted of a read and its refresh. -/
structure Notes where
  /-- When the read tried to set the lock. -/
  acquired : Option Time := none
  /-- When its refresh asked the upstream. -/
  started : Option Time := none
  reply : Option (Except Exc UpstreamAnswer) := none

abbrev Log := Nat → Notes

abbrev State := Pool Thread (Cmd ⊕ Call) (Sum.elim Ans Call.Ans) Exc Outcome World

/-- What a command adds to the notes of the read that its thread works for. -/
def Notes.add (now : Time) (ch : Choice) : Thread → Cmd ⊕ Call → Notes → Notes
  | .handler _, .inl (.setNx _ _ _), a => { a with acquired := some now }
  | .refresh _, .inl .job, a => { a with started := some now }
  | .refresh _, .inr _, a => { a with reply := Call.outcome ch }
  | _, _, a => a

def Log.note (log : Log) (p : State) : Label Thread Choice Happening → Log
  | .act i ch =>
    match p.prog i with
    | some (.call c _) =>
      Function.update log i.read ((log i.read).add p.state.now ch i c)
    | _ => log
  | _ => log

section Paced

variable (cfg : Config) (lib : Libraries) (gets : Nat → GetCall)

/-- No request of a refresh has overrun its timeout. -/
def WithinTimeout (p : State) (log : Log) : Prop :=
  ∀ n req k t, p.prog (.refresh n) = some (.call (.inr req) k) → (log n).started = some t →
    p.state.now ≤ t + (gets n).timeout cfg

/-- A refresh asks the upstream within four seconds after its read has set the lock,
and the request ends within its timeout. -/
structure Paced (p : State) (log : Log) (l : Label Thread Choice Happening) (q : State)
    (log' : Log) : Prop where
  noted : log' = log.note p l
  prompt : ∀ n ch k t, l = .act (.refresh n) ch →
    p.prog (.refresh n) = some (.call (.inl .job) k) → (log n).acquired = some t →
    p.state.now ≤ t + seconds 4
  within : WithinTimeout cfg gets q log'

/-- The runs that keep to these times, from any clock and any contents of the cache on. -/
def PacedRun (now : Time) (cache : Text → Option Stored) : State → Log → Prop :=
  Watched (machine cfg lib gets) (Paced cfg gets)
    ((machine cfg lib gets).start { now := now, cache := cache }) fun _ => {}

end Paced

/-- The request of the refresh that a read has started is on its way. -/
def InFlight (p : State) (n : Nat) : Prop :=
  ∃ req k, p.prog (.refresh n) = some (.call (.inr req) k)

/-! ## What a thread does -/

section Deeds

variable (cfg : Config) (lib : Libraries) (gets : Nat → GetCall)

/-- The commands that a thread issues at each stage. -/
inductive Deed : Thread → Stage → Cmd ⊕ Call → Prop where
  | plain {i : Thread} {stage : Stage} {c : Cmd ⊕ Call} : Plain c →
      (∀ r, stage.next cfg c r = stage) → (∀ now ch a, Notes.add now ch i c a = a) →
      Deed i stage c
  | draw {n : Nat} : Deed (.handler n) .idle (.inl .tokenHex)
  | lock {n : Nat} {t : Token} : Deed (.handler n) (.drawn t)
      (.inl (.setNx (lockName ((gets n).key lib)) t ((gets n).lockTtl cfg)))
  | spawn {n : Nat} {job : RefreshJob} : job.key = (gets n).key lib →
      Deed (.handler n) (.won job.lockToken) (.inl (.spawn job))
  | start {n : Nat} : Deed (.refresh n) .idle (.inl .job)
  | reply {n : Nat} {job : RefreshJob} {req : Call} : Deed (.refresh n) (.flying job) (.inr req)
  | release {n : Nat} {job : RefreshJob} {fit : Bool} : Deed (.refresh n) (.replied job fit)
      (.inl (.getDel (lockName job.key) job.lockToken))

variable {cfg lib gets} {i : Thread} {stage : Stage} {c : Cmd ⊕ Call}

theorem handler_deed {n : Nat} (h : Stage.handlerAllows cfg lib (gets n) stage c) :
    Deed cfg lib gets (.handler n) stage c := by
  unfold Stage.handlerAllows at h
  split at h
  · exact .draw
  · cases c with
    | inl c => cases c <;> first | exact .plain h (fun _ => rfl) (fun _ _ _ => rfl) | cases h
    | inr req => exact .plain h (fun _ => rfl) fun _ _ _ => rfl
  · cases c with
    | inl c => cases c <;> first | exact .plain h (fun _ => rfl) (fun _ _ _ => rfl) | cases h
    | inr req => exact .plain h (fun _ => rfl) fun _ _ _ => rfl
  · obtain ⟨rfl, rfl, rfl⟩ := h
    exact .lock
  · obtain ⟨hkey, rfl⟩ := h
    exact .spawn hkey
  · cases h

theorem refresh_deed {n : Nat} (h : Stage.refreshAllows stage c) :
    Deed cfg lib gets (.refresh n) stage c := by
  unfold Stage.refreshAllows at h
  split at h
  · exact .start
  · exact .reply
  · exact .plain trivial (fun _ => rfl) fun _ _ _ => rfl
  · exact .plain trivial (fun _ => rfl) fun _ _ _ => rfl
  · obtain ⟨rfl, rfl⟩ := h
    exact .release
  · cases h

theorem deed_of_allows (h : allowsAt cfg lib gets i stage c) : Deed cfg lib gets i stage c := by
  cases i with
  | handler n => exact handler_deed h
  | refresh n => exact refresh_deed h

/-- A refresh writes to the cache only after a reply that may be stored. -/
theorem refresh_set {n : Nat} {key value : Text} {ttl : Nat}
    (h : allowsAt cfg lib gets (.refresh n) stage (.inl (.set key value ttl))) :
    ∃ job, stage = .replied job true := by
  cases stage with
  | replied job fit =>
    obtain rfl : fit = true := h
    exact ⟨job, rfl⟩
  | _ => cases h

theorem refresh_call {n : Nat} {req : Call}
    (h : allowsAt cfg lib gets (.refresh n) stage (.inr req)) : ∃ job, stage = .flying job := by
  cases stage with
  | flying job => exact ⟨job, rfl⟩
  | _ => cases h

end Deeds

section Exec

variable {lib : Libraries} {i : Thread} {s s' : World} {ch : Choice}

/-- The parts of the world that the refreshes depend on are the same. -/
structure SameLocks (s s' : World) : Prop where
  now : s'.now = s.now
  locks : s'.locks = s.locks
  nextSerial : s'.nextSerial = s.nextSerial
  jobs : s'.jobs = s.jobs

theorem exec_plain {c : Cmd ⊕ Call} {r : Except Exc (Sum.elim Ans Call.Ans c)} (hc : Plain c)
    (h : exec lib i c ch s = some (r, s')) : SameLocks s s' := by
  cases c with
  | inl c =>
    obtain ⟨a, hp, -⟩ | ⟨rfl, -⟩ := exec_inl h
    · cases c <;> cases hc <;> cases hp <;> exact ⟨rfl, rfl, rfl, rfl⟩
    · exact ⟨rfl, rfl, rfl, rfl⟩
  | inr req =>
    obtain ⟨r', -, heq⟩ := Option.map_eq_some_iff.mp h
    cases heq
    cases r <;> exact ⟨rfl, rfl, rfl, rfl⟩

/-- Only a write changes what is stored. -/
theorem exec_cache {c : Cmd ⊕ Call} {r : Except Exc (Sum.elim Ans Call.Ans c)}
    (hc : ∀ key value ttl, c ≠ .inl (.set key value ttl)) (h : exec lib i c ch s = some (r, s')) :
    s'.cache = s.cache := by
  cases c with
  | inl c =>
    obtain ⟨a, hp, -⟩ | ⟨rfl, -⟩ := exec_inl h
    · cases c with
      | set key value ttl => exact absurd rfl (hc key value ttl)
      | setNx name t ttl =>
        simp only [perform] at hp
        split at hp <;> cases hp <;> rfl
      | getDel name t =>
        simp only [perform] at hp
        split at hp <;> cases hp <;> rfl
      | job =>
        obtain ⟨job, -, heq⟩ := Option.map_eq_some_iff.mp hp
        cases heq
        rfl
      | _ => cases hp; rfl
    · rfl
  | inr req =>
    obtain ⟨r', -, heq⟩ := Option.map_eq_some_iff.mp h
    cases heq
    cases r <;> rfl

end Exec

/-! ## The invariant -/

section Flights

variable (cfg : Config) (lib : Libraries) (gets : Nat → GetCall)

/-- The lock that a read has set is still in place, unless its time is over. -/
def Covered (s : World) (log : Log) (n : Nat) (t : Token) : Prop :=
  ∃ since : Time, (log n).acquired = some since ∧
    (s.locks (lockName ((gets n).key lib)) = some ⟨t, since + seconds ((gets n).lockTtl cfg)⟩ ∨
      since + seconds ((gets n).lockTtl cfg) ≤ s.now)

/-- The upstream was asked within four seconds. -/
def Prompt (a : Notes) : Prop :=
  ∃ since sent : Time, a.acquired = some since ∧ a.started = some sent ∧ sent ≤ since + seconds 4

/-- What holds of a thread at its stage; `owner` gives the token that each read has
drawn. -/
def StageOk (owner : Nat → Option Token) (s : World) (log : Log) : Thread → Stage → Prop
  | .handler n, .idle => owner n = none
  | .handler n, .drawn t => owner n = some t ∧ s.jobs n = none
  | .handler n, .won t => owner n = some t ∧ s.jobs n = none ∧ Covered cfg lib gets s log n t
  | .refresh n, .idle => ∀ job, s.jobs n = some job → Covered cfg lib gets s log n job.lockToken
  | .refresh n, .flying job =>
    s.jobs n = some job ∧ Covered cfg lib gets s log n job.lockToken ∧ Prompt (log n)
  | .refresh n, .replied job fit =>
    s.jobs n = some job ∧ (fit = true → ∃ r, (log n).reply = some r ∧ fitReply cfg r = true)
  | _, _ => True

structure Flights (owner : Nat → Option Token) (s : World) (φ : Thread → Option (Thread × Stage))
    (log : Log) : Prop where
  stage : ∀ i f, φ i = some f → f.1 = i ∧ StageOk cfg lib gets owner s log i f.2
  drawn : ∀ n t, owner n = some t → t.serial < s.nextSerial
  distinct : ∀ n n' t, owner n = some t → owner n' = some t → n = n'
  jobs : ∀ n job, s.jobs n = some job →
    owner n = some job.lockToken ∧ job.key = (gets n).key lib

variable {cfg lib gets} {owner owner' : Nat → Option Token} {s s' : World}
  {φ : Thread → Option (Thread × Stage)} {log log' : Log} {i j : Thread} {stage : Stage} {n : Nat}
  {job : RefreshJob} {ch : Choice}

theorem Covered.keep {t : Token} (h : Covered cfg lib gets s log n t)
    (hlog : (log' n).acquired = (log n).acquired) (hnow : s'.now = s.now)
    (hlock : ∀ l, s.locks (lockName ((gets n).key lib)) = some l → l.token = t →
      s'.locks (lockName ((gets n).key lib)) = some l) : Covered cfg lib gets s' log' n t := by
  obtain ⟨since, hsince, hcover⟩ := h
  refine ⟨since, hlog.trans hsince, ?_⟩
  rcases hcover with hl | hover
  · exact Or.inl (hlock _ hl rfl)
  · exact Or.inr (hnow ▸ hover)

/-- A thread is not concerned by what the threads of other reads do. -/
theorem StageOk.keep (h : StageOk cfg lib gets owner s log j stage)
    (hjob : ∀ job, s.jobs j.read = some job → owner j.read = some job.lockToken)
    (howner : ∀ m, j = .handler m → owner' m = owner m)
    (hjobs : s'.jobs j.read = s.jobs j.read) (hlog : log' j.read = log j.read)
    (hcover : ∀ t, owner j.read = some t → Covered cfg lib gets s log j.read t →
      Covered cfg lib gets s' log' j.read t) : StageOk cfg lib gets owner' s' log' j stage := by
  cases j with
  | handler n =>
    cases stage with
    | idle => exact (howner n rfl).trans h
    | drawn t => exact ⟨(howner n rfl).trans h.1, hjobs.trans h.2⟩
    | won t =>
      obtain ⟨ht, hnone, hcov⟩ := h
      exact ⟨(howner n rfl).trans ht, hjobs.trans hnone, hcover t ht hcov⟩
    | _ => trivial
  | refresh n =>
    cases stage with
    | idle =>
      intro job hj
      have hj' : s.jobs n = some job := hjobs.symm.trans hj
      exact hcover _ (hjob job hj') (h job hj')
    | flying job =>
      obtain ⟨hj, hcov, hprompt⟩ := h
      refine ⟨hjobs.trans hj, hcover _ (hjob job hj) hcov, ?_⟩
      rw [show log' n = log n from hlog]
      exact hprompt
    | replied job fit =>
      refine ⟨hjobs.trans h.1, ?_⟩
      rw [show log' n = log n from hlog]
      exact h.2
    | _ => trivial

/-- Nothing is known any more of a handler that has started its refresh. -/
theorem StageOk.spawned (h : StageOk cfg lib gets owner s log (.handler n) stage)
    (hjob : s.jobs n = some job) (howner : owner n = some job.lockToken) :
    StageOk cfg lib gets owner' s' log' (.handler n) stage := by
  cases stage with
  | idle =>
    rw [show owner n = none from h] at howner
    cases howner
  | drawn t =>
    rw [h.2] at hjob
    cases hjob
  | won t =>
    rw [h.2.1] at hjob
    cases hjob
  | _ => trivial

/-- A refresh that has not been started waits for its job. -/
theorem StageOk.unspawned (h : StageOk cfg lib gets owner s log (.refresh n) stage)
    (hnone : s.jobs n = none)
    (hjob : ∀ job, s'.jobs n = some job → Covered cfg lib gets s' log' n job.lockToken) :
    StageOk cfg lib gets owner' s' log' (.refresh n) stage := by
  cases stage with
  | idle => exact hjob
  | flying job =>
    rw [h.1] at hnone
    cases hnone
  | replied job fit =>
    rw [h.1] at hnone
    cases hnone
  | _ => trivial

/-- One thread goes on to its next stage. -/
theorem Flights.put (h : Flights cfg lib gets owner s φ log)
    (hown : StageOk cfg lib gets owner' s' log' i stage)
    (hother : ∀ j stage, j ≠ i → StageOk cfg lib gets owner s log j stage →
      StageOk cfg lib gets owner' s' log' j stage)
    (hdrawn : ∀ n t, owner' n = some t → t.serial < s'.nextSerial)
    (hdistinct : ∀ n n' t, owner' n = some t → owner' n' = some t → n = n')
    (hjobs : ∀ n job, s'.jobs n = some job →
      owner' n = some job.lockToken ∧ job.key = (gets n).key lib) :
    Flights cfg lib gets owner' s' (Function.update φ i (some (i, stage))) log' where
  stage j f hj := by
    obtain ⟨rfl, rfl⟩ | ⟨hji, hj⟩ := update_some hj
    · exact ⟨rfl, hown⟩
    · obtain ⟨hname, hok⟩ := h.stage j f hj
      exact ⟨hname, hother j f.2 hji hok⟩
  drawn := hdrawn
  distinct := hdistinct
  jobs := hjobs

theorem Flights.same (h : Flights cfg lib gets owner s φ log) (hs : SameLocks s s') :
    Flights cfg lib gets owner s' φ log where
  stage j f hj := by
    obtain ⟨hname, hok⟩ := h.stage j f hj
    refine ⟨hname, hok.keep (fun job hjob => (h.jobs _ job hjob).1) (fun _ _ => rfl)
      (by rw [hs.jobs]) rfl fun t _ hcov => hcov.keep rfl hs.now fun l hl _ => ?_⟩
    rw [hs.locks]
    exact hl
  drawn n t ht := by
    rw [hs.nextSerial]
    exact h.drawn n t ht
  distinct := h.distinct
  jobs n job hjob := h.jobs n job (by rw [← hs.jobs]; exact hjob)

theorem Thread.eq_handler (h : j ≠ .refresh n) (hj : j.read = n) : j = .handler n := by
  cases j with
  | handler m => rw [show m = n from hj]
  | refresh m => exact absurd (by rw [show m = n from hj]) h

theorem Thread.eq_refresh (h : j ≠ .handler n) (hj : j.read = n) : j = .refresh n := by
  cases j with
  | handler m => exact absurd (by rw [show m = n from hj]) h
  | refresh m => rw [show m = n from hj]

/-- A token that is drawn is new. -/
theorem Flights.draw (h : Flights cfg lib gets owner s φ log)
    (hok : StageOk cfg lib gets owner s log (.handler n) .idle) :
    Flights cfg lib gets (Function.update owner n (some ⟨s.nextSerial⟩))
      { s with nextSerial := s.nextSerial + 1 }
      (Function.update φ (.handler n) (some (.handler n, .drawn ⟨s.nextSerial⟩))) log := by
  have hnone : owner n = none := hok
  have hjobs : s.jobs n = none := by
    cases hjob : s.jobs n with
    | none => rfl
    | some job =>
      rw [(h.jobs n job hjob).1] at hnone
      cases hnone
  refine h.put ⟨Function.update_self _ _ _, hjobs⟩ ?_ ?_ ?_ ?_
  · intro j stage hj hok
    refine hok.keep (fun job hjob => (h.jobs _ job hjob).1) ?_ rfl rfl fun t _ hcov =>
      hcov.keep rfl rfl fun l hl _ => hl
    rintro m rfl
    exact Function.update_of_ne (fun hm => hj (by rw [hm])) _ _
  · intro m t ht
    obtain ⟨rfl, rfl⟩ | ⟨-, ht⟩ := update_some ht
    · exact Nat.lt_succ_self _
    · exact Nat.lt_succ_of_lt (h.drawn m t ht)
  · intro m m' t ht ht'
    obtain ⟨rfl, rfl⟩ | ⟨-, hold⟩ := update_some ht
    · obtain ⟨rfl, -⟩ | ⟨-, hold⟩ := update_some ht'
      · rfl
      · exact absurd (h.drawn m' _ hold) (Nat.lt_irrefl _)
    · obtain ⟨rfl, rfl⟩ | ⟨-, hold'⟩ := update_some ht'
      · exact absurd (h.drawn m _ hold) (Nat.lt_irrefl _)
      · exact h.distinct m m' t hold hold'
  · intro m job hjob
    have hm : m ≠ n := by
      rintro rfl
      rw [show s.jobs m = some job from hjob] at hjobs
      cases hjobs
    rw [Function.update_of_ne hm]
    exact h.jobs m job hjob

/-- A read tries to set its lock.  What it finds there stays. -/
theorem Flights.lock {t : Token} {a : Notes} (h : Flights cfg lib gets owner s φ log)
    (hok : StageOk cfg lib gets owner s log (.handler n) (.drawn t)) (hnow : s'.now = s.now)
    (hserial : s'.nextSerial = s.nextSerial) (hjobs : s'.jobs = s.jobs)
    (hlocks : ∀ name l, s.locks name = some l → s'.locks name = some l)
    (hown : stage = .done ∨
      (stage = .won t ∧ Covered cfg lib gets s' (Function.update log n a) n t)) :
    Flights cfg lib gets owner s' (Function.update φ (.handler n) (some (.handler n, stage)))
      (Function.update log n a) := by
  obtain ⟨ht, hnone⟩ := hok
  refine h.put ?_ ?_ ?_ h.distinct ?_
  · rcases hown with rfl | ⟨rfl, hcov⟩
    · trivial
    · exact ⟨ht, by rw [hjobs]; exact hnone, hcov⟩
  · intro j stage hj hok
    by_cases hread : j.read = n
    · obtain rfl := Thread.eq_refresh hj hread
      refine hok.unspawned hnone fun job hjob => ?_
      rw [hjobs, hnone] at hjob
      cases hjob
    · have hlog : Function.update log n a j.read = log j.read := Function.update_of_ne hread _ _
      refine hok.keep (fun job hjob => (h.jobs _ job hjob).1) (fun _ _ => rfl) (by rw [hjobs]) hlog
        fun t _ hcov => hcov.keep (by rw [hlog]) hnow fun l hl _ => hlocks _ l hl
  · intro m t ht
    rw [hserial]
    exact h.drawn m t ht
  · intro m job hjob
    rw [hjobs] at hjob
    exact h.jobs m job hjob

/-- The refresh takes over the lock. -/
theorem Flights.spawn (h : Flights cfg lib gets owner s φ log)
    (hok : StageOk cfg lib gets owner s log (.handler n) (.won job.lockToken))
    (hkey : job.key = (gets n).key lib) :
    Flights cfg lib gets owner { s with jobs := Function.update s.jobs n (some job) }
      (Function.update φ (.handler n) (some (.handler n, .done))) log := by
  obtain ⟨ht, hnone, hcov⟩ := hok
  have hkeep : ∀ m t, Covered cfg lib gets s log m t → Covered cfg lib gets
      { s with jobs := Function.update s.jobs n (some job) } log m t :=
    fun m t hcov => hcov.keep rfl rfl fun l hl _ => hl
  refine h.put trivial ?_ h.drawn h.distinct ?_
  · intro j stage hj hok
    by_cases hread : j.read = n
    · obtain rfl := Thread.eq_refresh hj hread
      refine hok.unspawned hnone fun job' hjob => ?_
      obtain rfl : job = job' := by simpa using hjob
      exact hkeep n _ hcov
    · exact hok.keep (fun job hjob => (h.jobs _ job hjob).1) (fun _ _ => rfl)
        (Function.update_of_ne hread _ _) rfl fun t _ hcov => hkeep _ t hcov
  · intro m job' hjob
    obtain ⟨rfl, rfl⟩ | ⟨-, hjob⟩ := update_some hjob
    · exact ⟨ht, hkey⟩
    · exact h.jobs m job' hjob

/-- A refresh goes on, with its job in hand. -/
theorem Flights.refresh {a : Notes} (h : Flights cfg lib gets owner s φ log)
    (hjob : s.jobs n = some job) (hnow : s'.now = s.now) (hserial : s'.nextSerial = s.nextSerial)
    (hjobs : s'.jobs = s.jobs)
    (hlocks : ∀ name l, s.locks name = some l → l.token ≠ job.lockToken → s'.locks name = some l)
    (hown : StageOk cfg lib gets owner s' (Function.update log n a) (.refresh n) stage) :
    Flights cfg lib gets owner s' (Function.update φ (.refresh n) (some (.refresh n, stage)))
      (Function.update log n a) := by
  have ht := (h.jobs n job hjob).1
  refine h.put hown ?_ ?_ h.distinct ?_
  · intro j stage hj hok
    by_cases hread : j.read = n
    · obtain rfl := Thread.eq_handler hj hread
      exact hok.spawned hjob ht
    · have hlog : Function.update log n a j.read = log j.read := Function.update_of_ne hread _ _
      refine hok.keep (fun job hjob => (h.jobs _ job hjob).1) (fun _ _ => rfl) (by rw [hjobs]) hlog
        fun t ht' hcov => hcov.keep (by rw [hlog]) hnow fun l hl hlt => hlocks _ l hl ?_
      rintro heq
      exact hread (h.distinct _ _ _ ht' (by rw [← hlt, heq]; exact ht))
  · intro m t ht
    rw [hserial]
    exact h.drawn m t ht
  · intro m job hjob
    rw [hjobs] at hjob
    exact h.jobs m job hjob

/-- A command that cannot fail has been executed. -/
theorem exec_sure {c : Cmd} {r : Except Exc (Ans c)} (hc : ∀ e, c.raises e = false)
    (h : exec lib i (.inl c) ch s = some (r, s')) :
    ∃ a, r = .ok a ∧ perform i s c = some (a, s') := by
  obtain ⟨a, hp, rfl | ⟨e, he, -⟩⟩ | ⟨-, e, he, -⟩ := exec_inl h
  · exact ⟨a, rfl, hp⟩
  · rw [hc e] at he
    cases he
  · rw [hc e] at he
    cases he

theorem Flights.act_lock {t : Token}
    {r : Except Exc (Ans (.setNx (lockName ((gets n).key lib)) t ((gets n).lockTtl cfg)))}
    (h : Flights cfg lib gets owner s φ log)
    (hok : StageOk cfg lib gets owner s log (.handler n) (.drawn t))
    (he : exec lib (.handler n) (.inl (.setNx (lockName ((gets n).key lib)) t ((gets n).lockTtl cfg)))
      ch s = some (r, s')) :
    Flights cfg lib gets owner s' (Function.update φ (.handler n) (some (.handler n,
        Stage.next cfg (.drawn t)
          (.inl (.setNx (lockName ((gets n).key lib)) t ((gets n).lockTtl cfg))) r)))
      (Function.update log n { log n with acquired := some s.now }) := by
  obtain ⟨a, hp, hr⟩ | ⟨rfl, e, -, rfl⟩ := exec_inl he
  · simp only [perform] at hp
    split at hp
    next l hl =>
      cases hp
      refine h.lock hok rfl rfl rfl (fun _ _ h => h) (Or.inl ?_)
      obtain rfl | ⟨e, -, rfl⟩ := hr <;> rfl
    next hl =>
      cases hp
      refine h.lock hok rfl rfl rfl (fun name l hname => ?_) ?_
      · show Function.update s.locks (lockName ((gets n).key lib)) _ name = some l
        rw [Function.update_of_ne]
        · exact hname
        · rintro rfl
          rw [hl] at hname
          cases hname
      · obtain rfl | ⟨e, -, rfl⟩ := hr
        · refine Or.inr ⟨rfl, s.now, by rw [Function.update_self], Or.inl ?_⟩
          exact Function.update_self _ _ _
        · exact Or.inl rfl
  · exact h.lock hok rfl rfl rfl (fun _ _ h => h) (Or.inl rfl)

theorem Flights.act_release {fit : Bool}
    {r : Except Exc (Ans (.getDel (lockName job.key) job.lockToken))}
    (h : Flights cfg lib gets owner s φ log)
    (hok : StageOk cfg lib gets owner s log (.refresh n) (.replied job fit))
    (he : exec lib (.refresh n) (.inl (.getDel (lockName job.key) job.lockToken)) ch s =
      some (r, s')) :
    Flights cfg lib gets owner s' (Function.update φ (.refresh n) (some (.refresh n, .done)))
      (Function.update log n (log n)) := by
  obtain ⟨a, hp, -⟩ | ⟨rfl, -⟩ := exec_inl he
  · simp only [perform] at hp
    split at hp
    next hl =>
      cases hp
      refine h.refresh hok.1 rfl rfl rfl (fun name l hname hne => ?_) trivial
      show Function.update s.locks (lockName job.key) none name = some l
      rw [Function.update_of_ne]
      · exact hname
      · rintro rfl
        rw [hname] at hl
        exact hne (Option.some.inj hl)
    next =>
      cases hp
      exact h.refresh hok.1 rfl rfl rfl (fun _ _ h _ => h) trivial
  · exact h.refresh hok.1 rfl rfl rfl (fun _ _ h _ => h) trivial

/-- One command of one thread. -/
theorem Flights.act {c : Cmd ⊕ Call} {r : Except Exc (Sum.elim Ans Call.Ans c)}
    (h : Flights cfg lib gets owner s φ log) (hf : φ i = some (i, stage))
    (hallow : allowsAt cfg lib gets i stage c) (he : exec lib i c ch s = some (r, s'))
    (hprompt : ∀ n t, i = .refresh n → c = .inl .job → (log n).acquired = some t →
      s.now ≤ t + seconds 4) :
    ∃ owner', Flights cfg lib gets owner' s'
      (Function.update φ i (some (i, stage.next cfg c r)))
      (Function.update log i.read ((log i.read).add s.now ch i c)) := by
  have hok := (h.stage i _ hf).2
  cases deed_of_allows hallow with
  | plain hc hnext hadd =>
    refine ⟨owner, ?_⟩
    rw [hnext r, hadd, Function.update_eq_self, Function.update_eq_self_iff.mpr hf.symm]
    exact h.same (exec_plain hc he)
  | @draw n =>
    obtain ⟨a, rfl, hp⟩ := exec_sure (fun _ => rfl) he
    cases hp
    refine ⟨Function.update owner n (some ⟨s.nextSerial⟩), ?_⟩
    rw [show Notes.add s.now ch (.handler n) (.inl .tokenHex) (log (Thread.handler n).read) =
      log (Thread.handler n).read from rfl, Function.update_eq_self]
    exact h.draw hok
  | lock => exact ⟨owner, h.act_lock hok he⟩
  | @spawn n job hkey =>
    obtain ⟨a, rfl, hp⟩ := exec_sure (fun _ => rfl) he
    cases hp
    refine ⟨owner, ?_⟩
    rw [show Notes.add s.now ch (.handler n) (.inl (.spawn job)) (log (Thread.handler n).read) =
      log (Thread.handler n).read from rfl, Function.update_eq_self]
    exact h.spawn hok hkey
  | @start n =>
    obtain ⟨job, rfl, hp⟩ := exec_sure (fun _ => rfl) he
    obtain ⟨job', hjob, heq⟩ := Option.map_eq_some_iff.mp hp
    cases heq
    have hcov := hok job hjob
    refine ⟨owner, h.refresh hjob rfl rfl rfl (fun _ _ h _ => h) ⟨hjob, ?_, ?_⟩⟩
    · exact hcov.keep (by rw [Function.update_self]; rfl) rfl fun l hl _ => hl
    · obtain ⟨since, hsince, -⟩ := hcov
      rw [Function.update_self]
      exact ⟨since, s.now, hsince, rfl, hprompt n since rfl rfl hsince⟩
  | @reply n job req =>
    obtain ⟨r', hr', heq⟩ := Option.map_eq_some_iff.mp he
    obtain ⟨rfl, rfl⟩ := Prod.mk.inj heq
    refine ⟨owner, ?_⟩
    have hreply : StageOk cfg lib gets owner s
        (Function.update log n { log n with reply := Call.outcome ch }) (.refresh n)
        (.replied job (fitReply cfg r')) := by
      refine ⟨hok.1, fun hfit => ⟨r', ?_, hfit⟩⟩
      rw [Function.update_self]
      exact hr'
    have hs : Flights cfg lib gets owner s (Function.update φ (.refresh n) (some (.refresh n,
        .replied job (fitReply cfg r'))))
        (Function.update log n { log n with reply := Call.outcome ch }) :=
      h.refresh hok.1 rfl rfl rfl (fun _ _ h _ => h) hreply
    cases r' <;> exact hs.same ⟨rfl, rfl, rfl, rfl⟩
  | release => exact ⟨owner, h.act_release hok he⟩

/-- Entries may expire or be evicted, and a lock is over when it expires. -/
theorem Flights.happen (h : Flights cfg lib gets owner s φ log) (e : Happening) :
    Flights cfg lib gets owner (happen e s) φ log := by
  cases e with
  | evict key | cookies jar => exact h.same ⟨rfl, rfl, rfl, rfl⟩
  | advance d =>
    refine ⟨fun j f hj => ?_, h.drawn, h.distinct, h.jobs⟩
    obtain ⟨hname, hok⟩ := h.stage j f hj
    refine ⟨hname, hok.keep (fun job hjob => (h.jobs _ job hjob).1) (fun _ _ => rfl) rfl rfl ?_⟩
    rintro t - ⟨since, hsince, hcover⟩
    refine ⟨since, hsince, ?_⟩
    by_cases hover : since + seconds ((gets j.read).lockTtl cfg) ≤ s.now + d
    · exact Or.inr hover
    · rcases hcover with hl | hl
      · refine Or.inl (Option.filter_eq_some_iff.mpr ⟨hl, ?_⟩)
        exact decide_eq_true (Nat.lt_of_not_le hover)
      · exact absurd (Nat.le_trans hl (Nat.le_add_right _ _)) hover

end Flights

/-! ## Runs -/

section Runs

variable {cfg : Config} {lib : Libraries} {gets : Nat → GetCall} {p q : State} {log log' : Log}
  {l : Label Thread Choice Happening} {now : Time} {cache : Text → Option Stored}

theorem flights_start : Flights cfg lib gets (fun _ => none) { now := now, cache := cache }
    (fun i => some (i, .idle)) fun _ => {} where
  stage i f hf := by
    cases hf
    cases i with
    | handler n => exact ⟨rfl, rfl⟩
    | refresh n => exact ⟨rfl, fun job hjob => by cases hjob⟩
  drawn n t h := by cases h
  distinct n n' t h := by cases h
  jobs n job h := by cases h

theorem Flights.move {φ φ' : Thread → Option (flightProtocol cfg lib gets).Phase}
    {owner : Nat → Option Token} (h : Flights cfg lib gets owner p.state φ log)
    (hm : Moves (flightProtocol cfg lib gets) (fun _ => True) (machine cfg lib gets) p φ l q φ')
    (hR : Paced cfg gets p log l q log') :
    ∃ owner', Flights cfg lib gets owner' q.state φ' log' := by
  obtain ⟨rfl, hprompt, -⟩ := hR
  cases hm with
  | @act i ch c k r s f hp he hf hallow =>
    obtain ⟨i', stage⟩ := f
    obtain rfl : i' = i := (h.stage i _ hf).1
    have hnote : log.note p (.act i' ch) =
        Function.update log i'.read ((log i'.read).add p.state.now ch i' c) := by
      simp only [Log.note, hp]
    rw [hnote]
    refine h.act hf hallow he ?_
    rintro n t rfl rfl ht
    exact hprompt n ch k t rfl hp ht
  | loop => exact ⟨owner, h⟩
  | @crash i =>
    refine ⟨owner, fun j f hj => ?_, h.drawn, h.distinct, h.jobs⟩
    have hji : j ≠ i := by
      rintro rfl
      rw [Function.update_self] at hj
      cases hj
    rw [Function.update_of_ne hji] at hj
    exact h.stage j f hj
  | @env e s he =>
    cases he
    exact ⟨owner, h.happen e⟩

theorem PacedRun.flights (h : PacedRun cfg lib gets now cache q log) :
    ∃ φ : Thread → Option (flightProtocol cfg lib gets).Phase,
      InPhase (flightProtocol cfg lib gets) (fun _ => True) q φ ∧
        ∃ owner, Flights cfg lib gets owner q.state φ log := by
  refine Watched.invariant (J := fun q φ log => ∃ owner, Flights cfg lib gets owner q.state φ log)
    h (fun _ _ _ _ hagain => by cases hagain) (InPhase.start boot_stages) ⟨_, flights_start⟩ ?_
  rintro p φ log l q φ' log' - hm hR ⟨owner, hJ⟩
  exact hJ.move hm hR

theorem PacedRun.withinTimeout (h : PacedRun cfg lib gets now cache q log) :
    WithinTimeout cfg gets q log := by
  cases h with
  | here =>
    intro n req k t hprog
    cases hprog
  | step _ _ hR => exact hR.within

/-- Four seconds and the timeout are less than five seconds and the whole seconds of
the timeout. -/
theorem four_seconds_and_timeout_lt (timeout : Nat) :
    4 * 1000000 + timeout < (timeout / 1000000 + 5) * 1000000 := by
  omega

/-- The lock outlives a request that was made within four seconds. -/
theorem lock_outlives_request (g : GetCall) {since sent current : Time}
    (hprompt : sent ≤ since + seconds 4) (hwithin : current ≤ sent + g.timeout cfg) :
    current < since + seconds (g.lockTtl cfg) := by
  have hlong : g.timeout cfg / 1000000 + 5 ≤ g.lockTtl cfg := Nat.le_max_right _ _
  have hend : current ≤ since + (seconds 4 + g.timeout cfg) := by
    rw [← Nat.add_assoc]
    exact Nat.le_trans hwithin (Nat.add_le_add_right hprompt _)
  have hshort : seconds 4 + g.timeout cfg < seconds (g.lockTtl cfg) :=
    Nat.lt_of_lt_of_le (four_seconds_and_timeout_lt _) (Nat.mul_le_mul_right _ hlong)
  exact Nat.lt_of_le_of_lt hend (Nat.add_lt_add_left hshort _)

/-- The lock of a key belongs to the refresh whose request is in flight. -/
theorem PacedRun.lock_inFlight (h : PacedRun cfg lib gets now cache q log)
    {φ : Thread → Option (flightProtocol cfg lib gets).Phase} {owner : Nat → Option Token}
    (hin : InPhase (flightProtocol cfg lib gets) (fun _ => True) q φ)
    (hflights : Flights cfg lib gets owner q.state φ log) {n : Nat} (hn : InFlight q n) :
    ∃ l, q.state.locks (lockName ((gets n).key lib)) = some l ∧ owner n = some l.token := by
  obtain ⟨req, k, hk⟩ := hn
  obtain ⟨⟨i, stage⟩, hf, hallow⟩ := hin.allows hk
  obtain ⟨rfl, hok⟩ := hflights.stage _ _ hf
  have hallow : allowsAt cfg lib gets (.refresh n) stage (.inr req) := hallow
  obtain ⟨job, rfl⟩ := refresh_call hallow
  obtain ⟨hjob, ⟨since, hsince, hcover⟩, since', sent, hsince', hsent, hprompt⟩ := hok
  obtain rfl : since = since' := Option.some.inj (hsince.symm.trans hsince')
  have hlive := lock_outlives_request (gets n) hprompt (h.withinTimeout n req k sent hk hsent)
  rcases hcover with hl | hover
  · exact ⟨_, hl, (hflights.jobs n job hjob).1⟩
  · exact absurd hlive (Nat.not_lt.mpr hover)

/-- Stale entries are refreshed one request at a time.  Whatever the interleaving, no
two requests of refreshes for one key are in flight together, and a refresh whose
request has failed, or was answered with something that may not be stored, leaves
the cache as it is. -/
theorem revalidation_single_flight (cfg : Config) (lib : Libraries) (gets : Nat → GetCall)
    (now : Time) (cache : Text → Option Stored) (q : State) (log : Log)
    (h : PacedRun cfg lib gets now cache q log) :
    (∀ n n', InFlight q n → InFlight q n' → (gets n).key lib = (gets n').key lib → n = n') ∧
    (∀ n ch q', (machine cfg lib gets).step q (.act (.refresh n) ch) = some q' →
      (∀ r, (log n).reply = some r → fitReply cfg r = false) →
      q'.state.cache = q.state.cache) := by
  obtain ⟨φ, hin, owner, hflights⟩ := h.flights
  constructor
  · intro n n' hn hn' hkey
    obtain ⟨l, hl, howner⟩ := h.lock_inFlight hin hflights hn
    obtain ⟨l', hl', howner'⟩ := h.lock_inFlight hin hflights hn'
    rw [hkey, hl'] at hl
    cases hl
    exact hflights.distinct n n' _ howner howner'
  · intro n ch q' hs hreply
    obtain ⟨φ', -, hm⟩ := hin.step (fun _ _ _ _ hagain => by cases hagain) hs
    cases hm with
    | @act _ _ c k r s f hp he hf hallow =>
      refine exec_cache ?_ he
      rintro key value ttl rfl
      obtain ⟨i, stage⟩ := f
      obtain ⟨rfl, hok⟩ := hflights.stage _ _ hf
      have hallow : allowsAt cfg lib gets (.refresh n) stage (.inl (.set key value ttl)) := hallow
      obtain ⟨job, rfl⟩ := refresh_set hallow
      obtain ⟨r, hr, hfit⟩ := hok.2 rfl
      rw [hreply r hr] at hfit
      cases hfit

end Runs

/-! ## Two reads of a stale page -/

section Evaluated

variable (cfg : Config) (lib : Libraries) (gets : Nat → GetCall) (reads : List Nat)

/-- None of these reads has a request that has overrun its timeout. -/
def withinTimeoutAmong (p : State) (log : Log) : Bool :=
  reads.all fun n =>
    match p.prog (.refresh n) with
    | some (.call (.inr _) _) =>
      (log n).started.all fun t => decide (p.state.now ≤ t + (gets n).timeout cfg)
    | _ => true

/-- A thread that works for one of these reads acts, and is not late. -/
def promptAt (p : State) (log : Log) : Label Thread Choice Happening → Bool
  | .act (.handler n) _ => decide (n ∈ reads)
  | .act (.refresh n) _ => decide (n ∈ reads) &&
    match p.prog (.refresh n) with
    | some (.call (.inl .job) _) =>
      (log n).acquired.all fun t => decide (p.state.now ≤ t + seconds 4)
    | _ => true
  | _ => true

/-- A run whose times are looked at step by step. -/
def pacedRun : State → Log → List (Label Thread Choice Happening) → Option (State × Log)
  | p, log, [] => some (p, log)
  | p, log, l :: ls =>
    ((machine cfg lib gets).step p l).bind fun q =>
      if promptAt reads p log l = true ∧
          withinTimeoutAmong cfg gets reads q (log.note p l) = true then
        pacedRun q (log.note p l) ls
      else none

variable {cfg lib gets reads} {p q : State} {log log' : Log} {now : Time}
  {cache : Text → Option Stored} {l : Label Thread Choice Happening}

theorem note_of_not_mem (h : promptAt reads p log l = true) {n : Nat} (hn : n ∉ reads) :
    log.note p l n = log n := by
  cases l with
  | act i ch =>
    have hread : i.read ∈ reads := by
      cases i with
      | handler m => exact of_decide_eq_true h
      | refresh m => exact of_decide_eq_true (Bool.and_eq_true_iff.mp h).1
    have hni : n ≠ i.read := by
      rintro rfl
      exact hn hread
    cases hprog : p.prog i with
    | none => simp only [Log.note, hprog]
    | some prog =>
      cases prog with
      | call c k => simp only [Log.note, hprog, Function.update_of_ne hni]
      | _ => simp only [Log.note, hprog]
  | _ => rfl

theorem withinTimeout_of_among (h : withinTimeoutAmong cfg gets reads q log = true)
    (hlog : ∀ n, n ∉ reads → (log n).started = none) : WithinTimeout cfg gets q log := by
  intro n req k t hprog ht
  have hmem : n ∈ reads := by
    by_contra hnot
    rw [hlog n hnot] at ht
    cases ht
  have hn := List.all_eq_true.mp h n hmem
  simpa [hprog, ht] using hn

theorem pacedRun_sound {ls : List (Label Thread Choice Happening)}
    (hp : PacedRun cfg lib gets now cache p log) (hlog : ∀ n, n ∉ reads → (log n).started = none)
    (h : pacedRun cfg lib gets reads p log ls = some (q, log')) :
    PacedRun cfg lib gets now cache q log' ∧ ∀ n, n ∉ reads → (log' n).started = none := by
  induction ls generalizing p log with
  | nil =>
    cases h
    exact ⟨hp, hlog⟩
  | cons l ls ih =>
    obtain ⟨p', hs, h⟩ := Option.bind_eq_some_iff.mp h
    split at h
    next hc =>
      obtain ⟨hprompt, hwithin⟩ := hc
      have hlog' : ∀ n, n ∉ reads → (log.note p l n).started = none := fun n hn => by
        rw [note_of_not_mem hprompt hn]
        exact hlog n hn
      refine ih (.step hp hs ⟨rfl, ?_, withinTimeout_of_among hwithin hlog'⟩) hlog' h
      rintro n ch k t rfl hjob ht
      have hlate := (Bool.and_eq_true_iff.mp hprompt).2
      simpa [hjob, ht] using hlate
    next => cases h

end Evaluated

section Mock

/-- The page as it stands in the cache, to be kept for a day and a minute. -/
noncomputable def mockCache : Text → Option Stored := fun key =>
  if key = mockRead.key mockLibraries then some ⟨mockJson, seconds 86460⟩ else none

/-- The next `n` commands of a thread succeed. -/
def succeeds (i : Thread) (n : Nat) : List (Label Thread Choice Happening) :=
  List.replicate n (.act i .ok)

/-- The first read gets the lock, and its refresh waits for the upstream; the second
read finds the lock taken. -/
def twoStaleReads : List (Label Thread Choice Happening) :=
  succeeds (.handler 0) 6 ++ [.env (.advance (seconds 3))] ++ succeeds (.refresh 0) 1 ++
    [.env (.advance (seconds 9))] ++ succeeds (.handler 1) 5

def asks (p : State) (n : Nat) : Bool :=
  match p.prog (.refresh n) with
  | some (.call (.inr _) _) => true
  | _ => false

theorem inFlight_of_asks {p : State} {n : Nat} (h : asks p n = true) : InFlight p n := by
  unfold asks at h
  split at h
  next req k hk => exact ⟨req, k, hk⟩
  next => cases h

/-- While the request of the first read is in flight, twelve seconds after the lock was
set, there is no other; and when it has timed out, the page stays in the cache. -/
theorem revalidation_single_flight_mock :
    ∃ q log, PacedRun mockConfig mockLibraries (fun _ => mockRead) (seconds 100) mockCache q log ∧
      InFlight q 0 ∧ (∀ n, InFlight q n → n = 0) ∧
      ∃ q₁ log₁ q₂,
        PacedRun mockConfig mockLibraries (fun _ => mockRead) (seconds 100) mockCache q₁ log₁ ∧
        (log₁ 0).reply.map (fitReply mockConfig) = some false ∧
        (machine mockConfig mockLibraries fun _ => mockRead).step q₁ (.act (.refresh 0) .ok) =
          some q₂ ∧ q₂.state.cache = q₁.state.cache := by
  have hboth : ((pacedRun mockConfig mockLibraries (fun _ => mockRead) [0, 1]
      ((machine mockConfig mockLibraries fun _ => mockRead).start
        { now := seconds 100, cache := mockCache }) (fun _ => {}) twoStaleReads).bind fun o =>
        (pacedRun mockConfig mockLibraries (fun _ => mockRead) [0, 1] o.1 o.2
          [.act (.refresh 0) (.refuse .timeoutError)]).map fun o₁ =>
            (asks o.1 0, (o₁.2 0).reply.map (fitReply mockConfig),
              ((machine mockConfig mockLibraries fun _ => mockRead).step o₁.1
                (.act (.refresh 0) .ok)).isSome)) = some (true, some false, true) := by
    decide +kernel
  obtain ⟨⟨q, log⟩, hq, hboth⟩ := Option.bind_eq_some_iff.mp hboth
  obtain ⟨⟨q₁, log₁⟩, hq₁, hobs⟩ := Option.map_eq_some_iff.mp hboth
  obtain ⟨hasks, hobs⟩ := Prod.mk.inj hobs
  obtain ⟨hreply, hstep⟩ := Prod.mk.inj hobs
  obtain ⟨q₂, hq₂⟩ := Option.isSome_iff_exists.mp hstep
  obtain ⟨hrun, hlog⟩ := pacedRun_sound .here (fun _ _ => rfl) hq
  obtain ⟨hrun₁, -⟩ := pacedRun_sound hrun hlog hq₁
  have hzero := inFlight_of_asks hasks
  refine ⟨q, log, hrun, hzero, fun n hn => ?_, q₁, log₁, q₂, hrun₁, hreply, hq₂, ?_⟩
  · exact (revalidation_single_flight _ _ _ _ _ q log hrun).1 n 0 hn hzero rfl
  · refine (revalidation_single_flight _ _ _ _ _ q₁ log₁ hrun₁).2 0 .ok q₂ hq₂ fun r hr => ?_
    rw [hr] at hreply
    exact Option.some.inj hreply

end Mock

end Cache
end Proxy
end AdaptiveGateway
