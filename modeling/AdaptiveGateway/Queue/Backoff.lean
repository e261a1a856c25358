/-
The backoff between two requests for one entry.

A worker writes the attempts, reads the clock, and writes the due time before it
sends; another worker sends only after it has found the due time passed.  Between
the two writes a worker may crash, and a worker that has lost its lease may go on
with what it has read long ago.  As long as no hash is written by a worker whose lease
has run out, the due time of an entry that is not acknowledged only grows, and whoever
sends under a lease that is in place has seen it pass.

`Knows` is what a worker may rely on at each turn while its lease is in place, and
`Floor` what an earlier request leaves behind for all later ones.
-/
import AdaptiveGateway.Queue.Turn

namespace AdaptiveGateway
namespace Queue

open Codec Concurrent

/-- The lease of the entry is in place, and it is the thread's own. -/
def InLease (s : World) (i : Thread) (m : EntryId) : Prop :=
  ∃ l, s.lock m = some l ∧ l.token.owner = i

def Acknowledged (s : World) (m : EntryId) : Prop := Event.xacked m ∈ s.log

/-- No lease runs out before the attempts and the due time are written under it. -/
def inTime : Guard Thread Cmd World Choice Time where
  act i c _ s :=
    match c with
    | .hsetAttempts m _ | .hsetDue m _ => InLease s i m
    | _ => True
  crash _ _ := True
  env _ _ := True

/-! ## What a command does to the due times -/

section Commands

variable {i : Thread} {s s' : World} {m : EntryId} {c : Cmd} {ch : Choice}

theorem perform_due {a : Option UpstreamAnswer} {o : Except Exc (Ans c)}
    (hset : ∀ m n, c ≠ .hsetDue m n) (hdel : ∀ m, c ≠ .hdelDue m)
    (h : perform i a s c = some (o, s')) : s'.due = s.due := by
  cases c with
  | hsetDue m n => exact absurd rfl (hset m n)
  | hdelDue m => exact absurd rfl (hdel m)
  | xadd | xgroupCreate | setNx | recv | commit =>
    simp only [perform] at h
    split at h <;> cases h <;> rfl
  | xreadgroup | xautoclaim =>
    simp only [perform] at h
    split at h
    next => cases h; rfl
    next => split at h <;> cases h <;> rfl
  | getDel m t =>
    simp only [perform] at h
    split at h
    next => split at h <;> cases h <;> rfl
    next => cases h; rfl
  | _ => cases h; rfl

/-- Everything a command can do to the due hash. -/
theorem exec_due {r : Except Exc (Ans c)} (h : exec i c ch s = some (r, s')) :
    s'.due = s.due ∨
    (∃ m t, c = .hsetDue m t ∧ s'.due = Function.update s.due m (some t)) ∨
    (∃ m, c = .hdelDue m ∧ s'.due = Function.update s.due m none) := by
  obtain ⟨e, -, -, rfl⟩ | ⟨a, o, s₁, -, hp, -, rfl⟩ := exec_cases h
  · exact Or.inl (by simp)
  · rw [noteReply_due]
    by_cases hset : ∃ m t, c = .hsetDue m t
    · obtain ⟨m, t, rfl⟩ := hset
      cases hp
      exact Or.inr (Or.inl ⟨m, t, rfl, rfl⟩)
    · by_cases hdel : ∃ m, c = .hdelDue m
      · obtain ⟨m, rfl⟩ := hdel
        cases hp
        exact Or.inr (Or.inr ⟨m, rfl, rfl⟩)
      · exact Or.inl (perform_due (fun m t hc => hset ⟨m, t, hc⟩) (fun m hc => hdel ⟨m, hc⟩) hp)

end Commands

/-! ## What a worker knows -/

/-- The due time of the entry, if there is one, is not later than `t`. -/
def DueBy (s : World) (m : EntryId) (t : Time) : Prop := ∀ due, s.due m = some due → due ≤ t

/-- The clock was read at `t` under the lease that is in place. -/
def ReadAt (cfg : Config) (s : World) (m : EntryId) (t : Time) : Prop :=
  t ≤ s.now ∧ ∀ l, s.lock m = some l →
    l.expires ≤ t + seconds cfg.settings.queueClaimIdleSeconds

def Knows (cfg : Config) (s : World) (m : EntryId) : Turn → Prop
  | .dated due => s.due m = due
  | .ready | .counted _ | .fit _ => DueBy s m s.now
  | .spent n => DueBy s m s.now ∧ s.attempts m = some n
  | .timed n t => DueBy s m t ∧ s.attempts m = some n ∧ ReadAt cfg s m t
  | .set n t => s.due m = some (t + seconds (backoffSeconds cfg n)) ∧ s.attempts m = some n ∧
      ReadAt cfg s m t
  | _ => True

/-- What leaves the knowledge about an entry alone. -/
structure Stays (m : EntryId) (s s' : World) : Prop where
  due : s'.due m = s.due m
  attempts : s'.attempts m = s.attempts m
  now : s.now ≤ s'.now
  lock : ∀ l, s'.lock m = some l → s.lock m = some l

section Knows

variable {cfg : Config} {s s' : World} {m : EntryId} {turn : Turn}

theorem DueBy.stays {t t' : Time} (h : DueBy s m t) (hs : Stays m s s') (ht : t ≤ t') :
    DueBy s' m t' := by
  intro due hdue
  rw [hs.due] at hdue
  exact Nat.le_trans (h due hdue) ht

theorem ReadAt.stays {t : Time} (h : ReadAt cfg s m t) (hs : Stays m s s') : ReadAt cfg s' m t :=
  ⟨Nat.le_trans h.1 hs.now, fun l hl => h.2 l (hs.lock l hl)⟩

theorem Knows.stays (h : Knows cfg s m turn) (hs : Stays m s s') : Knows cfg s' m turn := by
  cases turn with
  | dated due => exact hs.due.trans h
  | ready | counted n | fit n => exact DueBy.stays h hs hs.now
  | spent n => exact ⟨h.1.stays hs hs.now, hs.attempts.trans h.2⟩
  | timed n t => exact ⟨h.1.stays hs (Nat.le_refl t), hs.attempts.trans h.2.1, h.2.2.stays hs⟩
  | set n t => exact ⟨hs.due.trans h.1, hs.attempts.trans h.2.1, h.2.2.stays hs⟩
  | _ => trivial

end Knows

/-- What holds of all workers between two commands. -/
structure Informed (cfg : Config) (s : World) (φ : Thread → Option Duty) : Prop where
  owned : Owned s φ
  expires : ∀ m l, s.lock m = some l →
    l.expires ≤ s.now + seconds cfg.settings.queueClaimIdleSeconds
  knows : ∀ i m t turn, φ i = some (.leased m t turn) → InLease s i m → ¬Acknowledged s m →
    Knows cfg s m turn
  acked : ∀ i m t, φ i = some (.leased m t .acked) → Acknowledged s m

section Act

variable {cfg : Config} {s s' : World} {φ : Thread → Option Duty} {i j : Thread} {m : EntryId}
  {c : Cmd} {ch : Choice} {r : Except Exc (Ans c)} {f : Duty}

theorem Acknowledged.exec (h : Acknowledged s m) (he : exec i c ch s = some (r, s')) :
    Acknowledged s' m := (exec_grows he).log h

/-- Only a worker that has acknowledged the entry deletes its hash fields. -/
theorem acked_of_allows (hallow : f.allows cfg c) (hc : c = .hdelAttempts m ∨ c = .hdelDue m) :
    ∃ t, f = .leased m t .acked := by
  cases f with
  | free => rcases hc with rfl | rfl <;> exact hallow.elim
  | drawn t => rcases hc with rfl | rfl <;> exact hallow.elim
  | leased m' t turn =>
    cases turn with
    | acked =>
      obtain rfl : m = m' := by rcases hc with rfl | rfl <;> exact hallow
      exact ⟨t, rfl⟩
    | _ => rcases hc with rfl | rfl <;> exact hallow.elim

/-- Other threads leave an entry alone whose lease is in place. -/
theorem Informed.other (h : Informed cfg s φ) (hij : i ≠ j) (hf : φ j = some f)
    (hallow : f.allows cfg c) (hguard : inTime.act j c ch s) (he : exec j c ch s = some (r, s'))
    (hlease : InLease s' i m) (hopen : ¬Acknowledged s' m) : InLease s i m ∧ Stays m s s' := by
  have hlock : s'.lock m = s.lock m := by
    obtain ⟨l, hl, howner⟩ := hlease
    obtain hsame | ⟨m', t, rfl, -, hset⟩ | ⟨m', t, turn, l', -, -, -, hdel, -⟩ := exec_lock hallow he
    · rw [hsame]
    · rw [hset] at hl ⊢
      by_cases hm : m = m'
      · subst hm
        rw [Function.update_self] at hl
        cases hl
        exact absurd (howner.symm.trans (h.owned.drawn j t hf)) hij
      · rw [Function.update_of_ne hm]
    · rw [hdel] at hl ⊢
      by_cases hm : m = m'
      · subst hm
        rw [Function.update_self] at hl
        cases hl
      · rw [Function.update_of_ne hm]
  have hheld : InLease s i m := by
    obtain ⟨l, hl, howner⟩ := hlease
    exact ⟨l, hlock.symm.trans hl, howner⟩
  have hfirst : ¬InLease s j m := by
    rintro ⟨l, hl, howner⟩
    obtain ⟨l', hl', howner'⟩ := hheld
    rw [hl] at hl'
    cases hl'
    exact hij (howner'.symm.trans howner)
  have hkept : ∀ m', c = .hdelAttempts m' ∨ c = .hdelDue m' → m ≠ m' := by
    rintro m' hc rfl
    obtain ⟨t, rfl⟩ := acked_of_allows hallow hc
    exact hopen ((h.acked j m t hf).exec he)
  refine ⟨hheld, ?_, ?_, Nat.le_of_eq (exec_now he).symm, fun l hl => hlock.symm.trans hl⟩
  · obtain hsame | ⟨m', t, rfl, hset⟩ | ⟨m', rfl, hdel⟩ := exec_due he
    · rw [hsame]
    · have hm : m ≠ m' := by
        rintro rfl
        exact hfirst hguard
      rw [hset, Function.update_of_ne hm]
    · rw [hdel, Function.update_of_ne (hkept m' (Or.inr rfl))]
  · obtain ⟨hsame, -⟩ | ⟨m', n, rfl, hset, -⟩ | ⟨m', rfl, hdel⟩ := exec_attempts he
    · rw [hsame]
    · have hm : m ≠ m' := by
        rintro rfl
        exact hfirst hguard
      rw [hset, Function.update_of_ne hm]
    · rw [hdel, Function.update_of_ne (hkept m' (Or.inl rfl))]

/-- The leases stay as they are while a worker is at work under its own. -/
theorem lock_of_leased {t : Token} {turn : Turn} (hallow : Duty.allows cfg (.leased m t turn) c)
    (hdel : ∀ m t, c ≠ .getDel m t) (he : exec i c ch s = some (r, s')) : s'.lock = s.lock := by
  obtain hsame | ⟨_, _, hd, -⟩ | ⟨_, _, _, _, -, -, -, -, hfree⟩ := exec_lock hallow he
  · exact hsame
  · cases hd
  · rw [duty_next r hdel] at hfree
    cases hfree

/-- A command that writes neither hash. -/
theorem stays_of_exec (he : exec i c ch s = some (r, s')) (hlock : s'.lock = s.lock)
    (hc : ∀ m n, c ≠ .hsetAttempts m n ∧ c ≠ .hsetDue m n ∧ c ≠ .hdelAttempts m ∧ c ≠ .hdelDue m) :
    Stays m s s' := by
  refine ⟨?_, ?_, Nat.le_of_eq (exec_now he).symm, fun l hl => hlock ▸ hl⟩
  · obtain hsame | ⟨m', t, rfl, -⟩ | ⟨m', rfl, -⟩ := exec_due he
    · rw [hsame]
    · exact absurd rfl (hc m' t).2.1
    · exact absurd rfl (hc m' 0).2.2.2
  · obtain ⟨hsame, -⟩ | ⟨m', n, rfl, -⟩ | ⟨m', rfl, -⟩ := exec_attempts he
    · rw [hsame]
    · exact absurd rfl (hc m' n).1
    · exact absurd rfl (hc m' 0).2.2.1

/-- A worker learns what its command has told it, and keeps what it knew. -/
theorem Knows.next {t : Token} {turn : Turn} (h : Knows cfg s m turn)
    (hallow : Duty.allows cfg (.leased m t turn) c) (hdel : ∀ m t, c ≠ .getDel m t)
    (he : exec i c ch s = some (r, s'))
    (hexpires : ∀ l, s.lock m = some l →
      l.expires ≤ s.now + seconds cfg.settings.queueClaimIdleSeconds) :
    Knows cfg s' m (turn.next c r) := by
  have hlock := lock_of_leased hallow hdel he
  unfold Turn.next
  split
  case h_1 m' due =>
    obtain rfl : m' = m := hallow
    obtain ⟨u, s₁, hp, rfl⟩ := exec_ok he
    cases hp
    rfl
  case h_2 due now =>
    obtain ⟨rfl, hsame⟩ := exec_time he
    rw [hsame]
    by_cases hdue : s.now < due
    · rw [if_pos hdue]
      trivial
    · rw [if_neg hdue]
      intro due' hdue'
      rw [show s.due m = some due from h] at hdue'
      cases hdue'
      exact Nat.le_of_not_lt hdue
  case h_3 m' n =>
    have hstays := stays_of_exec (m := m) he hlock (by simp)
    intro due hdue
    rw [hstays.due, show s.due m = none from h] at hdue
    cases hdue
  case h_4 m' n =>
    have hstays := stays_of_exec (m := m) he hlock (by simp)
    exact DueBy.stays h hstays hstays.now
  case h_5 n now =>
    obtain ⟨-, hsame⟩ := exec_time he
    rw [hsame]
    exact h
  case h_6 n m' k _ =>
    obtain ⟨rfl, rfl⟩ : m' = m ∧ k = n + 1 := hallow
    obtain ⟨u, s₁, hp, rfl⟩ := exec_ok he
    cases hp
    exact ⟨h, Function.update_self _ _ _⟩
  case h_7 n now =>
    obtain ⟨rfl, hsame⟩ := exec_time he
    rw [hsame]
    exact ⟨h.1, h.2, Nat.le_refl _, hexpires⟩
  case h_8 n now m' due _ =>
    obtain ⟨rfl, rfl⟩ : m' = m ∧ due = now + seconds (backoffSeconds cfg n) := hallow
    obtain ⟨u, s₁, hp, rfl⟩ := exec_ok he
    cases hp
    exact ⟨Function.update_self _ _ _, h.2.1, h.2.2⟩
  all_goals trivial

end Act

/-! ## Every run -/

section Moves

variable {cfg : Config} {writes : Nat → Write} {p q : State}
  {φ φ' : Thread → Option (replayProtocol cfg).Phase} {l : Label Thread Choice Time}

theorem acked_next {s s' : World} {i : Thread} {m : EntryId} {t : Token} {turn : Turn} {c : Cmd}
    {ch : Choice} {r : Except Exc (Ans c)} (hallow : Duty.allows cfg (.leased m t turn) c)
    (he : exec i c ch s = some (r, s')) (hacked : turn = .acked → Acknowledged s m)
    (h : turn.next c r = .acked) : Acknowledged s' m := by
  unfold Turn.next at h
  split at h
  case h_2 => split at h <;> cases h
  case h_10 m' _ =>
    obtain rfl : m' = m := by cases turn <;> exact hallow
    obtain ⟨u, s₁, hp, rfl⟩ := exec_ok he
    cases hp
    exact List.mem_cons_self
  case h_11 => exact (hacked rfl).exec he
  case h_12 => exact (hacked rfl).exec he
  all_goals cases h

theorem InLease.of_advance {s : World} {d : Time} {i : Thread} {m : EntryId}
    (h : InLease (advance d s) i m) : InLease s i m := by
  obtain ⟨l, hl, howner⟩ := h
  exact ⟨l, (advance_lock hl).1, howner⟩

theorem stays_advance (d : Time) (s : World) (m : EntryId) : Stays m s (advance d s) where
  due := rfl
  attempts := rfl
  now := Nat.le_add_right _ _
  lock _ hl := (advance_lock hl).1

theorem informed_start : Informed cfg {} fun _ => some .free where
  owned := owned_start
  expires m l h := by cases h
  knows i m t turn h := by cases h
  acked i m t h := by cases h

theorem Informed.act {s s' : World} {φ : Thread → Option Duty} {i : Thread} {c : Cmd} {ch : Choice}
    {r : Except Exc (Ans c)} {f : Duty} (h : Informed cfg s φ) (hf : φ i = some f)
    (hallow : f.allows cfg c) (hguard : inTime.act i c ch s)
    (he : exec i c ch s = some (r, s')) :
    Informed cfg s' (Function.update φ i (some (f.next c r))) where
  owned := h.owned.act hf hallow he
  expires m l hl := by
    rw [exec_now he]
    obtain hsame | ⟨m', t, -, -, hset⟩ | ⟨m', t, turn, l', -, -, -, hdel, -⟩ := exec_lock hallow he
    · rw [hsame] at hl
      exact h.expires m l hl
    · rw [hset] at hl
      by_cases hm : m = m'
      · subst hm
        rw [Function.update_self] at hl
        cases hl
        exact Nat.le_refl _
      · rw [Function.update_of_ne hm] at hl
        exact h.expires m l hl
    · rw [hdel] at hl
      by_cases hm : m = m'
      · subst hm
        rw [Function.update_self] at hl
        cases hl
      · rw [Function.update_of_ne hm] at hl
        exact h.expires m l hl
  knows j m t turn hj hlease hopen := by
    obtain ⟨rfl, hnext⟩ | ⟨hji, hj⟩ := update_some hj
    · obtain ⟨-, rfl, -⟩ | ⟨turn', rfl, hdel, rfl⟩ := exec_leased hallow he hnext.symm
      · trivial
      · have hlease' : InLease s j m := by
          obtain ⟨l, hl, howner⟩ := hlease
          exact ⟨l, lock_of_leased hallow hdel he ▸ hl, howner⟩
        have hopen' : ¬Acknowledged s m := fun hack => hopen (hack.exec he)
        exact (h.knows j m t turn' hf hlease' hopen').next hallow hdel he (h.expires m)
    · obtain ⟨hlease', hstays⟩ := h.other hji hf hallow hguard he hlease hopen
      exact (h.knows j m t turn hj hlease' fun hack => hopen (hack.exec he)).stays hstays
  acked j m t hj := by
    obtain ⟨rfl, hnext⟩ | ⟨hji, hj⟩ := update_some hj
    · obtain ⟨-, hturn, -⟩ | ⟨turn', rfl, -, hturn⟩ := exec_leased hallow he hnext.symm
      · cases hturn
      · refine acked_next hallow he (fun hacked => ?_) hturn.symm
        subst hacked
        exact h.acked j m t hf
    · exact (h.acked j m t hj).exec he

theorem Informed.move (h : Informed cfg p.state φ)
    (hm : Moves (replayProtocol cfg) (fun d => d = .free) (machine cfg writes) p φ l q φ')
    (hguard : inTime.allows p l) : Informed cfg q.state φ' := by
  cases hm with
  | @act i ch c k r s f hp he hf hallow =>
    simp only [Guard.allows, hp] at hguard
    exact h.act hf hallow hguard he
  | loop => exact h
  | @crash i =>
    have hold : ∀ j d, Function.update φ i none j = some d → φ j = some d := by
      intro j d hj
      by_cases hji : j = i
      · subst hji
        rw [Function.update_self] at hj
        cases hj
      · rwa [Function.update_of_ne hji] at hj
    exact ⟨h.owned.mono hold fun _ _ hl => hl, h.expires,
      fun j m t turn hj => h.knows j m t turn (hold j _ hj),
      fun j m t hj => h.acked j m t (hold j _ hj)⟩
  | @env d s he =>
    cases he
    refine ⟨h.owned.mono (fun _ _ hi => hi) fun _ _ hl => (advance_lock hl).1, fun m l hl => ?_,
      fun j m t turn hj hlease hopen => ?_, h.acked⟩
    · refine Nat.le_trans (h.expires m l (advance_lock hl).1) ?_
      exact Nat.add_le_add_right (Nat.le_add_right _ _) _
    · exact (h.knows j m t turn hj hlease.of_advance hopen).stays (stays_advance d p.state m)

end Moves

/-! ## What a request leaves behind -/

/-- The worker has found the due time passed and has not sent its request yet. -/
def Turn.Past : Turn → Prop
  | .ready | .counted _ | .fit _ | .spent _ | .timed _ _ | .set _ _ => True
  | _ => False

/-- Until the entry is acknowledged, its due time is not before `due`, and whoever is
about to send has seen that time come. -/
def Floor (m : EntryId) (due : Time) (s : World) (φ : Thread → Option Duty) : Prop :=
  Acknowledged s m ∨
    ((∃ d, s.due m = some d ∧ due ≤ d) ∧
      ∀ i t turn, φ i = some (.leased m t turn) → InLease s i m → turn.Past → due ≤ s.now)

section Floor

variable {cfg : Config} {writes : Nat → Write} {p q : State} {m : EntryId} {due : Time}
  {φ φ' : Thread → Option (replayProtocol cfg).Phase} {l : Label Thread Choice Time}

theorem past_next {s s' : World} {i : Thread} {turn : Turn} {c : Cmd} {ch : Choice}
    {r : Except Exc (Ans c)} {d : Time} (hknows : Knows cfg s m turn) (hd : s.due m = some d)
    (hle : due ≤ d) (hpast : turn.Past → due ≤ s.now) (he : exec i c ch s = some (r, s'))
    (h : (turn.next c r).Past) : due ≤ s'.now := by
  rw [exec_now he]
  unfold Turn.next at h
  split at h
  case h_2 d' now =>
    obtain ⟨rfl, -⟩ := exec_time he
    obtain rfl : d' = d := Option.some.inj ((show s.due m = some d' from hknows).symm.trans hd)
    by_cases hnow : s.now < d'
    · rw [if_pos hnow] at h
      exact h.elim
    · exact Nat.le_trans hle (Nat.le_of_not_lt hnow)
  case h_3 =>
    rw [show s.due m = none from hknows] at hd
    cases hd
  case h_4 | h_5 | h_6 | h_7 | h_8 => exact hpast trivial
  all_goals exact h.elim

/-- A due time is written by a worker that has found the one before it passed. -/
theorem timed_of_allows {f : Duty} {t : Time} (hallow : f.allows cfg (.hsetDue m t)) :
    ∃ token n now, f = .leased m token (.timed n now) ∧
      t = now + seconds (backoffSeconds cfg n) := by
  cases f with
  | free => exact hallow.elim
  | drawn t => exact hallow.elim
  | leased m' token turn =>
    cases turn with
    | timed n now =>
      obtain ⟨rfl, rfl⟩ : m = m' ∧ t = now + seconds (backoffSeconds cfg n) := hallow
      exact ⟨token, n, now, rfl, rfl⟩
    | _ => exact hallow.elim

theorem Floor.act {s s' : World} {φ : Thread → Option Duty} {i : Thread} {c : Cmd} {ch : Choice}
    {r : Except Exc (Ans c)} {f : Duty} (h : Floor m due s φ) (hs : Informed cfg s φ)
    (hf : φ i = some f) (hallow : f.allows cfg c) (hguard : inTime.act i c ch s)
    (he : exec i c ch s = some (r, s')) :
    Floor m due s' (Function.update φ i (some (f.next c r))) := by
  by_cases hack : Acknowledged s' m
  · exact Or.inl hack
  · have hopen : ¬Acknowledged s m := fun h => hack (h.exec he)
    obtain ⟨⟨d, hd, hle⟩, hpast⟩ := h.resolve_left hopen
    refine Or.inr ⟨?_, fun j t turn hj hlease hturn => ?_⟩
    · obtain hsame | ⟨m', t, rfl, hset⟩ | ⟨m', rfl, hdel⟩ := exec_due he
      · exact ⟨d, by rw [hsame]; exact hd, hle⟩
      · by_cases hm : m = m'
        · subst hm
          obtain ⟨token, n, now, rfl, rfl⟩ := timed_of_allows hallow
          have hdue : DueBy s m now := (hs.knows i m token _ hf hguard hopen).1
          refine ⟨_, by rw [hset, Function.update_self], ?_⟩
          exact Nat.le_trans hle (Nat.le_trans (hdue d hd) (Nat.le_add_right _ _))
        · exact ⟨d, by rw [hset, Function.update_of_ne hm]; exact hd, hle⟩
      · have hm : m ≠ m' := by
          rintro rfl
          obtain ⟨t, rfl⟩ := acked_of_allows hallow (Or.inr rfl)
          exact hopen (hs.acked i m t hf)
        exact ⟨d, by rw [hdel, Function.update_of_ne hm]; exact hd, hle⟩
    · obtain ⟨rfl, hnext⟩ | ⟨hji, hj⟩ := update_some hj
      · obtain ⟨-, rfl, -⟩ | ⟨turn', rfl, hdel, rfl⟩ := exec_leased hallow he hnext.symm
        · exact hturn.elim
        · have hlease' : InLease s j m := by
            obtain ⟨l, hl, howner⟩ := hlease
            exact ⟨l, lock_of_leased hallow hdel he ▸ hl, howner⟩
          exact past_next (hs.knows j m t turn' hf hlease' hopen) hd hle
            (hpast j t turn' hf hlease') he hturn
      · obtain ⟨hlease', hstays⟩ := hs.other hji hf hallow hguard he hlease hack
        exact Nat.le_trans (hpast j t turn hj hlease' hturn) hstays.now

theorem Floor.move (h : Floor m due p.state φ) (hs : Informed cfg p.state φ)
    (hm : Moves (replayProtocol cfg) (fun d => d = .free) (machine cfg writes) p φ l q φ')
    (hguard : inTime.allows p l) : Floor m due q.state φ' := by
  cases hm with
  | @act i ch c k r s f hp he hf hallow =>
    simp only [Guard.allows, hp] at hguard
    exact h.act hs hf hallow hguard he
  | loop => exact h
  | @crash i =>
    refine h.imp id fun h => ⟨h.1, fun j t turn hj => ?_⟩
    by_cases hji : j = i
    · subst hji
      rw [Function.update_self] at hj
      cases hj
    · rw [Function.update_of_ne hji] at hj
      exact h.2 j t turn hj
  | @env d s he =>
    cases he
    refine h.imp id fun h => ⟨h.1, fun j t turn hj hlease hturn => ?_⟩
    exact Nat.le_trans (h.2 j t turn hj hlease.of_advance hturn) (Nat.le_add_right _ _)

/-- A request that is made leaves the due time of its entry behind as the floor. -/
theorem floor_of_send {s s' : World} {φ : Thread → Option Duty} {i : Thread} {ch : Choice}
    {req : HttpRequest (Dict Text Json)} {r : Except Exc Unit} {f : Duty}
    (hallow : f.allows cfg (.send m req)) (hlease : InLease s i m) (hd : s.due m = some due)
    (he : exec i (.send m req) ch s = some (r, s')) :
    Floor m due s' (Function.update φ i (some (f.next (.send m req) r))) := by
  obtain ⟨token, n, now, rfl⟩ := set_of_allows hallow
  have hlock := lock_of_leased hallow (by simp) he
  refine Or.inr ⟨⟨due, ?_, Nat.le_refl _⟩, fun j t turn hj hlease' hturn => ?_⟩
  · have hstays := stays_of_exec (m := m) he hlock (by simp)
    exact hstays.due.trans hd
  · obtain ⟨rfl, hnext⟩ | ⟨hji, hj⟩ := update_some hj
    · cases r <;> cases hnext <;> exact hturn.elim
    · -- Everybody else's lease of the entry has run out.
      obtain ⟨l, hl, howner⟩ := hlease
      obtain ⟨l', hl', howner'⟩ := hlease'
      rw [hlock, hl] at hl'
      cases hl'
      exact absurd (howner'.symm.trans howner) hji

end Floor

/-- The backoff is respected.  If a request for an entry that is not acknowledged is
made while the persisted attempts are `n`, then the due time is the backoff for `n`
added to a reading `t` of the clock, made under the same lease, and no later request
for the entry is made before it, as long as the entry is not acknowledged and both
requests are made while their leases are in place. -/
theorem backoff_respected (cfg : Config) (writes : Nat → Write) (p p' q : State) (i j : Thread)
    (m : EntryId) (req req' : HttpRequest (Dict Text Json)) (ch : Choice)
    (k k' : Except Exc Unit → Prog (Option EntryId))
    (hp : (machine cfg writes).Reach inTime ((machine cfg writes).start {}) p)
    (hsend : p.prog i = some (.call (.send m req) k)) (hlease : InLease p.state i m)
    (hopen : ¬Acknowledged p.state m) (hstep : (machine cfg writes).step p (.act i ch) = some p')
    (hq : (machine cfg writes).Reach inTime p' q)
    (hsend' : q.prog j = some (.call (.send m req') k')) (hlease' : InLease q.state j m)
    (hopen' : ¬Acknowledged q.state m) :
    ∃ n t lease, p.state.attempts m = some n ∧
      p.state.due m = some (t + seconds (backoffSeconds cfg n)) ∧ p.state.lock m = some lease ∧
      lease.expires ≤ t + seconds cfg.settings.queueClaimIdleSeconds ∧ t ≤ p.state.now ∧
      t + seconds (backoffSeconds cfg n) ≤ q.state.now := by
  have hguard : inTime.allows p (.act i ch) := by
    simp only [Guard.allows, hsend]
    trivial
  obtain ⟨φ, hin, hinformed⟩ := (watched_of_reach hp).invariant again_follows_turns start_turns
    (J := fun p φ _ => Informed cfg p.state φ) informed_start
    fun p φ _ l q φ' _ _ hm hR hJ => hJ.move hm hR
  obtain ⟨f, hf, hallow⟩ := hin.allows hsend
  obtain ⟨token, n, t, rfl⟩ := set_of_allows hallow
  obtain ⟨hdue, hattempts, hread⟩ := hinformed.knows i m token _ hf hlease hopen
  obtain ⟨lease, hlock, howner⟩ := hlease
  refine ⟨n, t, lease, hattempts, hdue, hlock, hread.2 lease hlock, hread.1, ?_⟩
  obtain ⟨φ', hin', hmoves⟩ := hin.step again_follows_turns hstep
  have hinformed' := hinformed.move hmoves hguard
  have hfloor : Floor m (t + seconds (backoffSeconds cfg n)) p'.state φ' := by
    cases hmoves with
    | act hprog he hf' hallow' =>
      rw [hsend] at hprog
      cases hprog
      exact floor_of_send hallow' ⟨lease, hlock, howner⟩ hdue he
  obtain ⟨ψ, hin'', -, hfloor'⟩ := (watched_of_reach hq).invariant again_follows_turns hin'
    (J := fun q ψ _ => Informed cfg q.state ψ ∧
      Floor m (t + seconds (backoffSeconds cfg n)) q.state ψ) ⟨hinformed', hfloor⟩
    fun p φ _ l q φ' _ _ hm hR hJ => ⟨hJ.1.move hm hR, hJ.2.move hJ.1 hm hR⟩
  obtain ⟨f', hf', hallow'⟩ := hin''.allows hsend'
  obtain ⟨token', n', t', rfl⟩ := set_of_allows hallow'
  exact (hfloor'.resolve_left hopen').2 j token' _ hf' hlease' trivial

/-! ## Two workers and one entry -/

section Mock

def inLeaseTest (s : World) (i : Thread) (m : EntryId) : Bool :=
  (s.lock m).any fun l => decide (l.token.owner = i)

theorem inLease_of_test {s : World} {i : Thread} {m : EntryId} (h : inLeaseTest s i m = true) :
    InLease s i m := by
  unfold inLeaseTest at h
  cases hl : s.lock m with
  | none =>
    rw [hl] at h
    cases h
  | some l =>
    rw [hl] at h
    exact ⟨l, hl, by simpa using h⟩

/-- `inTime`, as a test. -/
def inTimeTest (p : State) : Label Thread Choice Time → Bool
  | .act i _ =>
    match p.prog i with
    | some (.call (.hsetAttempts m _) _) | some (.call (.hsetDue m _) _) =>
      inLeaseTest p.state i m
    | _ => true
  | _ => true

theorem allows_of_inTimeTest (p : State) (l : Label Thread Choice Time)
    (h : inTimeTest p l = true) : inTime.allows p l := by
  cases l with
  | act i ch =>
    simp only [Guard.allows]
    split
    next c k hp =>
      cases c with
      | hsetAttempts m n =>
        simp only [inTimeTest, hp] at h
        exact inLease_of_test h
      | hsetDue m t =>
        simp only [inTimeTest, hp] at h
        exact inLease_of_test h
      | _ => trivial
    next => trivial
  | loop i => trivial
  | crash i => trivial
  | env d => trivial

/-- The thread is about to make a request for the entry. -/
def sendsNext (p : State) (i : Thread) (m : EntryId) : Bool :=
  match p.prog i with
  | some (.call (.send m' _) _) => m' == m
  | _ => false

theorem prog_of_sendsNext {p : State} {i : Thread} {m : EntryId} (h : sendsNext p i m = true) :
    ∃ req k, p.prog i = some (.call (.send m req) k) := by
  unfold sendsNext at h
  split at h
  next m' req k hk =>
    obtain rfl : m' = m := by simpa using h
    exact ⟨req, k, hk⟩
  next => cases h

def acknowledgedTest (s : World) (m : EntryId) : Bool :=
  s.log.any fun e =>
    match e with
    | .xacked m' => m' == m
    | _ => false

theorem not_acknowledged {s : World} {m : EntryId} (h : acknowledgedTest s m = false) :
    ¬Acknowledged s m := by
  intro hmem
  have htest : acknowledgedTest s m = true := List.any_eq_true.mpr ⟨_, hmem, by simp⟩
  rw [h] at htest
  cases htest

/-- The mock queue up to a request of thread `i`, and on from there. -/
def twoRequests (first : List (Label Thread Choice Time)) (i : Thread)
    (second : List (Label Thread Choice Time)) : Option (State × State × State) :=
  (Machine.runIn (machine mockConfig fun _ => mockWrite) inTimeTest
      ((machine mockConfig fun _ => mockWrite).start {}) first).bind fun p =>
    ((machine mockConfig fun _ => mockWrite).step p (.act i .ok)).bind fun p' =>
      (Machine.runIn (machine mockConfig fun _ => mockWrite) inTimeTest p' second).map fun q =>
        (p, p', q)

theorem twoRequests_spec {first second : List (Label Thread Choice Time)} {i : Thread}
    (test : State → State → Bool)
    (h : (twoRequests first i second).any (fun x => test x.1 x.2.2) = true) :
    ∃ p p' q, (machine mockConfig fun _ => mockWrite).Reach inTime
        ((machine mockConfig fun _ => mockWrite).start {}) p ∧
      (machine mockConfig fun _ => mockWrite).step p (.act i .ok) = some p' ∧
      (machine mockConfig fun _ => mockWrite).Reach inTime p' q ∧ test p q = true := by
  obtain ⟨⟨p, p', q⟩, hrun, htest⟩ := (Option.any_eq_true _ _).mp h
  obtain ⟨p₁, hp, hrun⟩ := Option.bind_eq_some_iff.mp hrun
  obtain ⟨p₂, hp', hrun⟩ := Option.bind_eq_some_iff.mp hrun
  obtain ⟨q₁, hq, heq⟩ := Option.map_eq_some_iff.mp hrun
  cases heq
  exact ⟨p, p', q, Machine.reach_of_runIn allows_of_inTimeTest hp, hp',
    Machine.reach_of_runIn allows_of_inTimeTest hq, htest⟩

/-- Worker 0 up to its request. -/
def firstAttempt : List (Label Thread Choice Time) :=
  steps (.client 0) 2 ++ steps (.worker 0) 10

/-- A minute later worker 1 claims the entry and goes on up to its request. -/
def secondAttempt : List (Label Thread Choice Time) :=
  [.env (seconds 60)] ++ steps (.worker 1) 14

/-- The answer to worker 0 is an error, and it gives its lease back. -/
def failedAttempt : List (Label Thread Choice Time) :=
  [.act (.worker 0) (.answer ⟨503, Dict.empty, [], []⟩)] ++ steps (.worker 0) 1

/-- A request, an error, and a second request by another worker. -/
theorem backoff_respected_mock :
    ∃ p q : State, sendsNext p (.worker 0) 1 = true ∧ sendsNext q (.worker 1) 1 = true ∧
      ∃ n t, p.state.attempts 1 = some n ∧
        p.state.due 1 = some (t + seconds (backoffSeconds mockConfig n)) ∧
        t + seconds (backoffSeconds mockConfig n) ≤ q.state.now := by
  obtain ⟨p, p', q, hp, hp', hq, htest⟩ := twoRequests_spec (i := .worker 0)
    (fun p q => sendsNext p (.worker 0) 1 && inLeaseTest p.state (.worker 0) 1 &&
      !acknowledgedTest p.state 1 && sendsNext q (.worker 1) 1 &&
      inLeaseTest q.state (.worker 1) 1 && !acknowledgedTest q.state 1)
    (show (twoRequests firstAttempt _ (failedAttempt ++ secondAttempt)).any _ = true by
      decide +kernel)
  simp only [Bool.and_eq_true, Bool.not_eq_true'] at htest
  obtain ⟨⟨⟨⟨⟨hsends, hlease⟩, hack⟩, hsends'⟩, hlease'⟩, hack'⟩ := htest
  obtain ⟨req, k, hprog⟩ := prog_of_sendsNext hsends
  obtain ⟨req', k', hprog'⟩ := prog_of_sendsNext hsends'
  obtain ⟨n, t, -, hattempts, hdue, -, -, -, hle⟩ :=
    backoff_respected mockConfig (fun _ => mockWrite) p p' q (.worker 0) (.worker 1) 1 req req' .ok
      k k' hp hprog (inLease_of_test hlease) (not_acknowledged hack) hp' hq hprog'
      (inLease_of_test hlease') (not_acknowledged hack')
  exact ⟨p, q, hsends, hsends', n, t, hattempts, hdue, hle⟩

/-- A request is made for an entry that is not acknowledged, with `n` attempts and a
due time that was computed at `t`, and a later one comes before that time. -/
def BackoffBroken (p q : State) (i j : Thread) (m : EntryId) (n : Nat) (t : Time) : Prop :=
  ∃ p' req req' k k',
    (machine mockConfig fun _ => mockWrite).Reach inTime
      ((machine mockConfig fun _ => mockWrite).start {}) p ∧
    p.prog i = some (.call (.send m req) k) ∧ ¬Acknowledged p.state m ∧
    p.state.attempts m = some n ∧
    p.state.due m = some (t + seconds (backoffSeconds mockConfig n)) ∧
    (machine mockConfig fun _ => mockWrite).step p (.act i .ok) = some p' ∧
    (machine mockConfig fun _ => mockWrite).Reach inTime p' q ∧
    q.prog j = some (.call (.send m req') k') ∧
    q.state.now < t + seconds (backoffSeconds mockConfig n)

def brokenTest (i j : Thread) (m : EntryId) (n : Nat) (t : Time) (p q : State) : Bool :=
  sendsNext p i m && !acknowledgedTest p.state m && decide (p.state.attempts m = some n) &&
    decide (p.state.due m = some (t + seconds (backoffSeconds mockConfig n))) &&
    sendsNext q j m && decide (q.state.now < t + seconds (backoffSeconds mockConfig n))

/-- Worker 0 has read the entry and sleeps for a minute before it takes its lease; in
the meantime worker 1 claims the entry. -/
def sharedEntry : List (Label Thread Choice Time) :=
  steps (.client 0) 2 ++ steps (.worker 0) 2 ++ [.env (seconds 60)] ++ steps (.worker 1) 5 ++
    steps (.worker 0) 8

/-- Worker 0 succeeds and acknowledges the entry; worker 1 takes its turn. -/
def afterAck : List (Label Thread Choice Time) :=
  [.act (.worker 0) (.answer ⟨200, Dict.empty, [], []⟩)] ++ steps (.worker 0) 5 ++
    steps (.worker 1) 8

theorem backoffBroken_of_test {first second : List (Label Thread Choice Time)} {i j : Thread}
    {m : EntryId} {n : Nat} {t : Time} (test : State → State → Bool)
    (h : (twoRequests first i second).any
      (fun x => brokenTest i j m n t x.1 x.2.2 && test x.1 x.2.2) = true) :
    ∃ p q, BackoffBroken p q i j m n t ∧ test p q = true := by
  obtain ⟨p, p', q, hp, hp', hq, htest⟩ := twoRequests_spec
    (fun p q => brokenTest i j m n t p q && test p q) h
  simp only [brokenTest, Bool.and_eq_true, Bool.not_eq_true', decide_eq_true_eq] at htest
  obtain ⟨⟨⟨⟨⟨⟨hsends, hack⟩, hattempts⟩, hdue⟩, hsends'⟩, hearly⟩, hextra⟩ := htest
  obtain ⟨req, k, hprog⟩ := prog_of_sendsNext hsends
  obtain ⟨req', k', hprog'⟩ := prog_of_sendsNext hsends'
  exact ⟨p, q, ⟨p', req, req', k, k', hp, hprog, not_acknowledged hack, hattempts, hdue, hp', hq,
    hprog', hearly⟩, hextra⟩

/-- Two ways to come too early, although no lease runs out before the due time is
written under it.  A worker that has written its due time sleeps until its lease is
over and another worker has made its request, and then makes its own; the entry is
still open.  And a worker that had claimed the entry before takes its turn when the
entry has been acknowledged and its due time deleted; both leases are in place. -/
theorem stale_worker_breaks_backoff :
    (∃ p q, BackoffBroken p q (.worker 1) (.worker 0) 1 2 (seconds 60) ∧
      ¬Acknowledged q.state 1) ∧
    ∃ p q, BackoffBroken p q (.worker 0) (.worker 1) 1 1 (seconds 60) ∧
      InLease p.state (.worker 0) 1 ∧ InLease q.state (.worker 1) 1 := by
  constructor
  · obtain ⟨p, q, hbroken, hopen⟩ := backoffBroken_of_test (i := .worker 1) (j := .worker 0)
      (m := 1) (n := 2) (t := seconds 60) (fun _ q => !acknowledgedTest q.state 1)
      (show (twoRequests (firstAttempt ++ secondAttempt) _ []).any _ = true by decide +kernel)
    exact ⟨p, q, hbroken, not_acknowledged (by simpa using hopen)⟩
  · obtain ⟨p, q, hbroken, hleases⟩ := backoffBroken_of_test (i := .worker 0) (j := .worker 1)
      (m := 1) (n := 1) (t := seconds 60)
      (fun p q => inLeaseTest p.state (.worker 0) 1 && inLeaseTest q.state (.worker 1) 1)
      (show (twoRequests sharedEntry _ afterAck).any _ = true by decide +kernel)
    rw [Bool.and_eq_true] at hleases
    exact ⟨p, q, hbroken, inLease_of_test hleases.1, inLease_of_test hleases.2⟩

end Mock

end Queue
end AdaptiveGateway
