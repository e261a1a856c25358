/-
What one command can do to the stores.

`exec_cases` reduces a command with all its ways to fail to at most one
execution of `perform` followed by the history of the reply, so a property of
the stores has to be checked for `perform` alone.  `Ordered` is the shape of the
stream and of its group that Redis maintains by itself.
-/
import AdaptiveGateway.Queue.SyncWorker

namespace AdaptiveGateway
namespace Queue

open Codec Concurrent

variable {i : Thread} {s s' : World} {m : EntryId}

/-! ## Replies -/

section Reply

variable (i s) (c : Cmd) (r : Except Exc (Ans c))

/-- A reply changes the history alone. -/
theorem noteReply_frame : ∃ held log, noteReply i s c r = { s with held := held, log := log } := by
  unfold noteReply
  split <;> exact ⟨_, _, rfl⟩

@[simp] theorem noteReply_now : (noteReply i s c r).now = s.now := by
  obtain ⟨held, log, h⟩ := noteReply_frame i s c r
  rw [h]

@[simp] theorem noteReply_stream : (noteReply i s c r).stream = s.stream := by
  obtain ⟨held, log, h⟩ := noteReply_frame i s c r
  rw [h]

@[simp] theorem noteReply_lastId : (noteReply i s c r).lastId = s.lastId := by
  obtain ⟨held, log, h⟩ := noteReply_frame i s c r
  rw [h]

@[simp] theorem noteReply_group : (noteReply i s c r).group = s.group := by
  obtain ⟨held, log, h⟩ := noteReply_frame i s c r
  rw [h]

@[simp] theorem noteReply_attempts : (noteReply i s c r).attempts = s.attempts := by
  obtain ⟨held, log, h⟩ := noteReply_frame i s c r
  rw [h]

@[simp] theorem noteReply_due : (noteReply i s c r).due = s.due := by
  obtain ⟨held, log, h⟩ := noteReply_frame i s c r
  rw [h]

@[simp] theorem noteReply_lock : (noteReply i s c r).lock = s.lock := by
  obtain ⟨held, log, h⟩ := noteReply_frame i s c r
  rw [h]

@[simp] theorem noteReply_rows : (noteReply i s c r).rows = s.rows := by
  obtain ⟨held, log, h⟩ := noteReply_frame i s c r
  rw [h]

@[simp] theorem noteReply_nextSerial : (noteReply i s c r).nextSerial = s.nextSerial := by
  obtain ⟨held, log, h⟩ := noteReply_frame i s c r
  rw [h]

end Reply

@[simp] theorem record_stream (e : Event) : (s.record e).stream = s.stream := rfl
@[simp] theorem record_log (e : Event) : (s.record e).log = e :: s.log := rfl
@[simp] theorem record_lastId (e : Event) : (s.record e).lastId = s.lastId := rfl
@[simp] theorem record_group (e : Event) : (s.record e).group = s.group := rfl
@[simp] theorem record_attempts (e : Event) : (s.record e).attempts = s.attempts := rfl
@[simp] theorem record_lock (e : Event) : (s.record e).lock = s.lock := rfl
@[simp] theorem record_rows (e : Event) : (s.record e).rows = s.rows := rfl
@[simp] theorem record_held (e : Event) : (s.record e).held = s.held := rfl
@[simp] theorem record_nextSerial (e : Event) : (s.record e).nextSerial = s.nextSerial := rfl

theorem has_iff : s.has m = true ↔ ∃ f, (m, f) ∈ s.stream := by
  simp [World.has]

/-! ## Inversion -/

/-- A command leaves the stores alone or performs its effect once. -/
theorem exec_cases {c : Cmd} {ch : Choice} {r : Except Exc (Ans c)}
    (h : exec i c ch s = some (r, s')) :
    (∃ e, ch = .refuse e ∧ r = .error e ∧ s' = noteReply i s c r) ∨
    (∃ a o s₁, (∀ e, ch ≠ .refuse e) ∧ perform i a s c = some (o, s₁) ∧
      (r = o ∨ ∃ e, r = .error e ∧ c.raises e = true) ∧ s' = noteReply i s₁ c r) := by
  cases ch with
  | ok =>
    obtain ⟨⟨o, s₁⟩, hp, he⟩ := Option.map_eq_some_iff.mp h
    obtain ⟨rfl, rfl⟩ := Prod.mk.inj he
    exact Or.inr ⟨none, _, s₁, by simp, hp, Or.inl rfl, rfl⟩
  | answer a =>
    obtain ⟨⟨o, s₁⟩, hp, he⟩ := Option.map_eq_some_iff.mp h
    obtain ⟨rfl, rfl⟩ := Prod.mk.inj he
    exact Or.inr ⟨some a, _, s₁, by simp, hp, Or.inl rfl, rfl⟩
  | refuse e =>
    simp only [exec] at h
    split at h
    next hr =>
      obtain ⟨rfl, rfl⟩ := Prod.mk.inj (Option.some.inj h)
      exact Or.inl ⟨e, rfl, rfl, rfl⟩
    next => cases h
  | lost e =>
    simp only [exec] at h
    split at h
    next hr =>
      obtain ⟨⟨o, s₁⟩, hp, he⟩ := Option.map_eq_some_iff.mp h
      obtain ⟨rfl, rfl⟩ := Prod.mk.inj he
      exact Or.inr ⟨none, o, s₁, by simp, hp, Or.inr ⟨e, rfl, hr⟩, rfl⟩
    next => cases h

/-- A command that returned did so with the store's own answer. -/
theorem exec_ok {c : Cmd} {ch : Choice} {a : Ans c} (h : exec i c ch s = some (.ok a, s')) :
    ∃ u s₁, perform i u s c = some (.ok a, s₁) ∧ s' = noteReply i s₁ c (.ok a) := by
  obtain ⟨e, -, he, -⟩ | ⟨u, o, s₁, -, hp, ho | ⟨e, he, -⟩, rfl⟩ := exec_cases h
  · cases he
  · subst ho
    exact ⟨u, s₁, hp, rfl⟩
  · cases he

/-- To show that a command keeps a property that no reply touches, it is enough
to look at its effect. -/
theorem exec_keeps {J : World → Prop} {c : Cmd} {ch : Choice} {r : Except Exc (Ans c)}
    (hnote : ∀ t r, J t → J (noteReply i t c r))
    (hperform : ∀ a o t, perform i a s c = some (o, t) → J t)
    (hs : J s) (h : exec i c ch s = some (r, s')) : J s' := by
  obtain ⟨e, -, -, rfl⟩ | ⟨a, o, s₁, -, hp, -, rfl⟩ := exec_cases h
  · exact hnote s r hs
  · exact hnote s₁ r (hperform a o s₁ hp)

/-- Everything a command can do to the stream and its group. -/
theorem perform_stream {c : Cmd} {a : Option UpstreamAnswer} {o : Except Exc (Ans c)}
    (h : perform i a s c = some (o, s')) :
    (s'.stream = s.stream ∧ s'.lastId = s.lastId ∧ s'.group = s.group) ∨
    (s.group = none ∧ s'.stream = s.stream ∧ s'.lastId = s.lastId ∧ s'.group = some ⟨0, []⟩) ∨
    (∃ d f, c = .xadd d f ∧ s'.stream = s.stream ++ [(s.lastId + 1, f.encode)] ∧
      s'.lastId = s.lastId + 1 ∧ s'.group = s.group) ∨
    (∃ n g, s.group = some g ∧ s'.stream = s.stream ∧ s'.lastId = s.lastId ∧
      s'.group = some (s.readGroup i g n)) ∨
    (∃ idle start n g, s.group = some g ∧ s'.stream = s.stream ∧ s'.lastId = s.lastId ∧
      s'.group = some (s.claimGroup i g idle start n)) ∨
    (∃ m, c = .xack m ∧ s'.stream = s.stream ∧ s'.lastId = s.lastId ∧
      s'.group = s.group.map (Group.ack m)) ∨
    (∃ m, c = .xdel m ∧ s'.stream = s.stream.filter (fun e => e.1 ≠ m) ∧
      s'.lastId = s.lastId ∧ s'.group = s.group) := by
  cases c with
  | xgroupCreate =>
    simp only [perform] at h
    split at h
    next hg =>
      cases h
      exact Or.inr (Or.inl ⟨hg, rfl, rfl, rfl⟩)
    next => cases h; exact Or.inl ⟨rfl, rfl, rfl⟩
  | xadd maxDepth f =>
    simp only [perform] at h
    split at h
    next => cases h; exact Or.inl ⟨rfl, rfl, rfl⟩
    next =>
      cases h
      exact Or.inr (Or.inr (Or.inl ⟨maxDepth, f, rfl, rfl, rfl, rfl⟩))
  | xreadgroup n =>
    simp only [perform] at h
    split at h
    next => cases h; exact Or.inl ⟨rfl, rfl, rfl⟩
    next g hg =>
      refine Or.inr (Or.inr (Or.inr (Or.inl ⟨n, g, hg, ?_⟩)))
      split at h <;> cases h <;> exact ⟨rfl, rfl, rfl⟩
  | xautoclaim idle start n =>
    simp only [perform] at h
    split at h
    next => cases h; exact Or.inl ⟨rfl, rfl, rfl⟩
    next g hg =>
      refine Or.inr (Or.inr (Or.inr (Or.inr (Or.inl ⟨idle, start, n, g, hg, ?_⟩))))
      split at h <;> cases h <;> exact ⟨rfl, rfl, rfl⟩
  | xack m =>
    cases h
    exact Or.inr (Or.inr (Or.inr (Or.inr (Or.inr (Or.inl ⟨m, rfl, rfl, rfl, rfl⟩)))))
  | xdel m =>
    cases h
    exact Or.inr (Or.inr (Or.inr (Or.inr (Or.inr (Or.inr ⟨m, rfl, rfl, rfl, rfl⟩)))))
  | setNx m t ttl =>
    simp only [perform] at h
    split at h <;> cases h <;> exact Or.inl ⟨rfl, rfl, rfl⟩
  | getDel m t =>
    simp only [perform] at h
    split at h
    next => split at h <;> cases h <;> exact Or.inl ⟨rfl, rfl, rfl⟩
    next => cases h; exact Or.inl ⟨rfl, rfl, rfl⟩
  | commit m row =>
    simp only [perform] at h
    split at h <;> cases h <;> exact Or.inl ⟨rfl, rfl, rfl⟩
  | recv m =>
    simp only [perform] at h
    split at h <;> cases h
    exact Or.inl ⟨rfl, rfl, rfl⟩
  | _ => cases h; exact Or.inl ⟨rfl, rfl, rfl⟩

/-! ## History -/

/-- The event that a command issued in `s` can put on record. -/
def Records (i : Thread) (s : World) : Cmd → Event → Prop
  | .xadd _ f, e => e = .added (s.lastId + 1) f.encode
  | .hsetAttempts m _, e => e = .wrote m (s.tokenOf i m)
  | .send m req, e => e = .sent m (s.tokenOf i m) req
  | .recv m, e => ∃ status, e = .answered m status
  | .xack m, e => e = .xacked m
  | .hdelDue m, e => e = .acked m
  | _, _ => False

/-- Each kind of event has its one command. -/
theorem Records.cmd {c : Cmd} {e : Event} (h : Records i s c e) :
    match e with
    | .added m b => ∃ d f, c = .xadd d f ∧ m = s.lastId + 1 ∧ b = f.encode
    | .wrote m t => ∃ n, c = .hsetAttempts m n ∧ t = s.tokenOf i m
    | .sent m t req => c = .send m req ∧ t = s.tokenOf i m
    | .answered m _ => c = .recv m
    | .xacked m => c = .xack m
    | .acked m => c = .hdelDue m := by
  cases c with
  | xadd d f =>
    cases h
    exact ⟨d, f, rfl, rfl, rfl⟩
  | hsetAttempts m n =>
    cases h
    exact ⟨n, rfl, rfl⟩
  | send m req =>
    cases h
    exact ⟨rfl, rfl⟩
  | recv m =>
    obtain ⟨status, rfl⟩ := h
    rfl
  | xack m | hdelDue m =>
    cases h
    rfl
  | _ => exact h.elim

theorem perform_log {c : Cmd} {a : Option UpstreamAnswer} {o : Except Exc (Ans c)}
    (h : perform i a s c = some (o, s')) :
    s'.log = s.log ∨ ∃ e, Records i s c e ∧ s'.log = e :: s.log := by
  cases c with
  | xadd maxDepth f =>
    simp only [perform] at h
    split at h <;> cases h
    · exact Or.inl rfl
    · exact Or.inr ⟨_, rfl, rfl⟩
  | hsetAttempts m n =>
    cases h
    exact Or.inr ⟨_, rfl, rfl⟩
  | send m req =>
    cases h
    exact Or.inr ⟨_, rfl, rfl⟩
  | recv m =>
    simp only [perform] at h
    split at h <;> cases h
    exact Or.inr ⟨_, ⟨_, rfl⟩, rfl⟩
  | xack m =>
    cases h
    exact Or.inr ⟨_, rfl, rfl⟩
  | xgroupCreate | setNx | commit =>
    simp only [perform] at h
    split at h <;> cases h <;> exact Or.inl rfl
  | xreadgroup | xautoclaim =>
    simp only [perform] at h
    split at h
    next => cases h; exact Or.inl rfl
    next => split at h <;> cases h <;> exact Or.inl rfl
  | getDel m t =>
    simp only [perform] at h
    split at h
    next => split at h <;> cases h <;> exact Or.inl rfl
    next => cases h; exact Or.inl rfl
  | _ => cases h; exact Or.inl rfl

theorem noteReply_log (c : Cmd) (r : Except Exc (Ans c)) :
    (noteReply i s c r).log = s.log ∨
      ∃ m, c = .hdelDue m ∧ (noteReply i s c r).log = .acked m :: s.log := by
  unfold noteReply
  split
  next => exact Or.inl rfl
  next => exact Or.inl rfl
  next m _ => exact Or.inr ⟨m, rfl, rfl⟩
  next => exact Or.inl rfl

theorem perform_rows {c : Cmd} {a : Option UpstreamAnswer} {o : Except Exc (Ans c)}
    (h : perform i a s c = some (o, s')) :
    s'.rows = s.rows ∨ ∃ m row, c = .commit m row ∧ row.accepted = true ∧
      s'.rows = (m, row) :: s.rows := by
  cases c with
  | commit m row =>
    simp only [perform] at h
    split at h <;> cases h
    next hrow => exact Or.inr ⟨m, row, rfl, hrow, rfl⟩
    next => exact Or.inl rfl
  | xadd | xgroupCreate | setNx | recv =>
    simp only [perform] at h
    split at h <;> cases h <;> exact Or.inl rfl
  | xreadgroup | xautoclaim =>
    simp only [perform] at h
    split at h
    next => cases h; exact Or.inl rfl
    next => split at h <;> cases h <;> exact Or.inl rfl
  | getDel m t =>
    simp only [perform] at h
    split at h
    next => split at h <;> cases h <;> exact Or.inl rfl
    next => cases h; exact Or.inl rfl
  | _ => cases h; exact Or.inl rfl

/-- A command puts at most one event on record. -/
theorem exec_log {c : Cmd} {ch : Choice} {r : Except Exc (Ans c)}
    (h : exec i c ch s = some (r, s')) :
    s'.log = s.log ∨ ∃ e, Records i s c e ∧ s'.log = e :: s.log := by
  obtain ⟨e, -, -, rfl⟩ | ⟨a, o, s₁, -, hp, -, rfl⟩ := exec_cases h
  · obtain hn | ⟨m, rfl, hn⟩ := noteReply_log (i := i) (s := s) c r
    · exact Or.inl hn
    · exact Or.inr ⟨_, rfl, hn⟩
  · obtain hn | ⟨m, rfl, hn⟩ := noteReply_log (i := i) (s := s₁) c r
    · rw [hn]
      exact perform_log hp
    · cases hp
      exact Or.inr ⟨_, rfl, hn⟩

theorem perform_attempts {c : Cmd} {a : Option UpstreamAnswer} {o : Except Exc (Ans c)}
    (hset : ∀ m n, c ≠ .hsetAttempts m n) (hdel : ∀ m, c ≠ .hdelAttempts m)
    (h : perform i a s c = some (o, s')) : s'.attempts = s.attempts := by
  cases c with
  | hsetAttempts m n => exact absurd rfl (hset m n)
  | hdelAttempts m => exact absurd rfl (hdel m)
  | xadd | xgroupCreate | setNx | recv | commit =>
    simp only [perform] at h
    split at h <;> cases h <;> rfl
  | xreadgroup | xautoclaim =>
    simp only [perform] at h
    split at h
    next => cases h; rfl
    next => split at h <;> cases h <;> rfl
  | getDel m t =>
    simp only [perform] at h
    split at h
    next => split at h <;> cases h <;> rfl
    next => cases h; rfl
  | _ => cases h; rfl

/-- Everything a command can do to the attempts hash. -/
theorem exec_attempts {c : Cmd} {ch : Choice} {r : Except Exc (Ans c)}
    (h : exec i c ch s = some (r, s')) :
    (s'.attempts = s.attempts ∧ ∀ m n, c = .hsetAttempts m n → s'.log = s.log) ∨
    (∃ m n, c = .hsetAttempts m n ∧ s'.attempts = Function.update s.attempts m (some n) ∧
      s'.log = .wrote m (s.tokenOf i m) :: s.log) ∨
    (∃ m, c = .hdelAttempts m ∧ s'.attempts = Function.update s.attempts m none) := by
  obtain ⟨e, -, -, rfl⟩ | ⟨a, o, s₁, -, hp, -, rfl⟩ := exec_cases h
  · refine Or.inl ⟨by simp, ?_⟩
    rintro m n rfl
    rfl
  · by_cases hset : ∃ m n, c = .hsetAttempts m n
    · obtain ⟨m, n, rfl⟩ := hset
      cases hp
      exact Or.inr (Or.inl ⟨m, n, rfl, rfl, rfl⟩)
    · by_cases hdel : ∃ m, c = .hdelAttempts m
      · obtain ⟨m, rfl⟩ := hdel
        cases hp
        exact Or.inr (Or.inr ⟨m, rfl, rfl⟩)
      · refine Or.inl ⟨?_, fun m n hc => absurd ⟨m, n, hc⟩ hset⟩
        rw [noteReply_attempts]
        exact perform_attempts (fun m n hc => hset ⟨m, n, hc⟩) (fun m hc => hdel ⟨m, hc⟩) hp

/-- Nothing that has happened is forgotten. -/
structure Grows (s s' : World) : Prop where
  log : s.log ⊆ s'.log
  rows : s.rows ⊆ s'.rows

theorem Grows.refl (s : World) : Grows s s :=
  ⟨List.Subset.refl _, List.Subset.refl _⟩

theorem Grows.trans {t : World} (h : Grows s s') (h' : Grows s' t) : Grows s t :=
  ⟨List.Subset.trans h.log h'.log, List.Subset.trans h.rows h'.rows⟩

theorem noteReply_grows (c : Cmd) (r : Except Exc (Ans c)) : Grows s (noteReply i s c r) := by
  refine ⟨?_, by simp⟩
  obtain h | ⟨m, -, h⟩ := noteReply_log (i := i) (s := s) c r
  · rw [h]
    exact List.Subset.refl _
  · rw [h]
    exact List.subset_cons_self _ _

theorem perform_grows {c : Cmd} {a : Option UpstreamAnswer} {o : Except Exc (Ans c)}
    (h : perform i a s c = some (o, s')) : Grows s s' := by
  constructor
  · obtain hl | ⟨e, -, hl⟩ := perform_log h <;> rw [hl]
    · exact List.Subset.refl _
    · exact List.subset_cons_self _ _
  · obtain hr | ⟨m, row, -, -, hr⟩ := perform_rows h <;> rw [hr]
    · exact List.Subset.refl _
    · exact List.subset_cons_self _ _

theorem exec_grows {c : Cmd} {ch : Choice} {r : Except Exc (Ans c)}
    (h : exec i c ch s = some (r, s')) : Grows s s' :=
  exec_keeps (J := Grows s) (fun _ r ht => ht.trans (noteReply_grows _ r))
    (fun _ _ _ hp => perform_grows hp) (Grows.refl s) h

/-! ## The shape of the stream -/

/-- Ids grow along the stream, and the group has seen no further than the last
one. -/
structure Ordered (s : World) : Prop where
  sorted : s.stream.Pairwise fun a b => a.1 < b.1
  bounded : ∀ e ∈ s.stream, 0 < e.1 ∧ e.1 ≤ s.lastId
  delivered : ∀ g, s.group = some g → g.lastDelivered ≤ s.lastId
  pending : ∀ g, s.group = some g → ∀ p ∈ g.pel, p.id ≤ g.lastDelivered

theorem ordered_start : Ordered {} :=
  ⟨List.Pairwise.nil, by simp, by simp, by simp⟩

theorem Ordered.congr {t : World} (h : Ordered s) (hstream : t.stream = s.stream)
    (hid : t.lastId = s.lastId) (hgroup : t.group = s.group) : Ordered t := by
  obtain ⟨h1, h2, h3, h4⟩ := h
  refine ⟨?_, ?_, ?_, ?_⟩
  · rw [hstream]; exact h1
  · rw [hstream, hid]; exact h2
  · rw [hgroup, hid]; exact h3
  · rw [hgroup]; exact h4

theorem Ordered.sublist {t : World} (h : Ordered s) (hstream : t.stream.Sublist s.stream)
    (hid : t.lastId = s.lastId) (hgroup : t.group = s.group) : Ordered t := by
  obtain ⟨h1, h2, h3, h4⟩ := h
  refine ⟨h1.sublist hstream, fun e he => ?_, ?_, ?_⟩
  · rw [hid]; exact h2 e (hstream.subset he)
  · rw [hgroup, hid]; exact h3
  · rw [hgroup]; exact h4

/-- The scan moves pending entries or drops them, and adds none. -/
theorem claimScan_mem {has : EntryId → Bool} {now minIdle : Time} {consumer : Thread}
    {looks count : Nat} {ps : List Pending} {p : Pending}
    (h : p ∈ (claimScan has now minIdle consumer looks count ps).pel) :
    ∃ q ∈ ps, q.id = p.id := by
  fun_induction claimScan has now minIdle consumer looks count ps with
  | case1 => simp at h
  | case2 _ q qs => exact ⟨p, h, rfl⟩
  | case3 _ q qs => exact ⟨p, h, rfl⟩
  | case4 looks count q qs hq hidle r ih =>
    rcases List.mem_cons.mp h with rfl | h
    · exact ⟨p, by simp, rfl⟩
    · obtain ⟨x, hx, hid⟩ := ih h
      exact ⟨x, List.mem_cons_of_mem q hx, hid⟩
  | case5 looks count q qs hq hidle r ih =>
    rcases List.mem_cons.mp h with rfl | h
    · exact ⟨q, by simp, rfl⟩
    · obtain ⟨x, hx, hid⟩ := ih h
      exact ⟨x, List.mem_cons_of_mem q hx, hid⟩
  | case6 looks count q qs hq ih =>
    obtain ⟨x, hx, hid⟩ := ih h
    exact ⟨x, List.mem_cons_of_mem q hx, hid⟩

/-- The scan keeps every pending entry that the stream still holds. -/
theorem claimScan_keeps {has : EntryId → Bool} {now minIdle : Time} {consumer : Thread}
    {looks count : Nat} {ps : List Pending} {p : Pending} (hp : p ∈ ps) (hhas : has p.id = true) :
    ∃ q ∈ (claimScan has now minIdle consumer looks count ps).pel, q.id = p.id := by
  fun_induction claimScan has now minIdle consumer looks count ps with
  | case1 => simp at hp
  | case2 _ q qs => exact ⟨p, hp, rfl⟩
  | case3 _ q qs => exact ⟨p, hp, rfl⟩
  | case4 looks count q qs hq hidle r ih =>
    rcases List.mem_cons.mp hp with rfl | hp
    · exact ⟨p, by simp, rfl⟩
    · obtain ⟨x, hx, hid⟩ := ih hp
      exact ⟨x, List.mem_cons_of_mem q hx, hid⟩
  | case5 looks count q qs hq hidle r ih =>
    rcases List.mem_cons.mp hp with rfl | hp
    · exact ⟨⟨p.id, consumer, now⟩, by simp, rfl⟩
    · obtain ⟨x, hx, hid⟩ := ih hp
      exact ⟨x, List.mem_cons_of_mem _ hx, hid⟩
  | case6 looks count q qs hq ih =>
    rcases List.mem_cons.mp hp with rfl | hp
    · exact absurd hhas hq
    · exact ih hp

/-- Everything the stream holds and the group has not seen lies behind the last
id that a read hands out. -/
theorem readGroup_covers (h : Ordered s) {g : Group} {n : Nat} {e : EntryId × Fields Bytes}
    (he : e ∈ s.stream) (hg : g.lastDelivered < e.1) :
    (s.readGroup i g n).lastDelivered < e.1 ∨ ∃ p ∈ (s.readGroup i g n).pel, p.id = e.1 := by
  have hund : e ∈ s.undelivered g := by simp [World.undelivered, he, hg]
  rcases List.mem_append.mp ((List.take_append_drop n (s.undelivered g)).symm ▸ hund) with hin | hout
  · exact Or.inr ⟨⟨e.1, i, s.now⟩, by
      simp only [World.readGroup, List.mem_append, List.mem_map]
      exact Or.inr ⟨e, hin, rfl⟩, rfl⟩
  · left
    have hsorted : (s.undelivered g).Pairwise fun a b => a.1 < b.1 :=
      h.sorted.sublist List.filter_sublist
    rw [← List.take_append_drop n (s.undelivered g)] at hsorted
    simp only [World.readGroup]
    cases hl : ((s.undelivered g).take n).getLast? with
    | none => simpa using hg
    | some x =>
      have hx : x ∈ (s.undelivered g).take n := List.mem_of_getLast? hl
      simpa using (List.pairwise_append.mp hsorted).2.2 x hx e hout

theorem readGroup_ordered (h : Ordered s) {g : Group} {n : Nat} (hg : s.group = some g) :
    g.lastDelivered ≤ (s.readGroup i g n).lastDelivered ∧
      (s.readGroup i g n).lastDelivered ≤ s.lastId ∧
      ∀ p ∈ (s.readGroup i g n).pel, p.id ≤ (s.readGroup i g n).lastDelivered := by
  have hsorted : ((s.undelivered g).take n).Pairwise fun a b => a.1 < b.1 :=
    h.sorted.sublist ((List.take_sublist _ _).trans List.filter_sublist)
  have hmem : ∀ e ∈ (s.undelivered g).take n, e ∈ s.stream ∧ g.lastDelivered < e.1 := by
    intro e he
    simpa [World.undelivered] using List.mem_of_mem_take he
  have hold : ∀ p ∈ g.pel, p.id ≤ g.lastDelivered := h.pending g hg
  simp only [World.readGroup]
  cases hl : ((s.undelivered g).take n).getLast? with
  | none =>
    obtain hnil := List.getLast?_eq_none_iff.mp hl
    refine ⟨by simp, by simpa using h.delivered g hg, ?_⟩
    simpa [hnil] using hold
  | some x =>
    have hx := List.mem_of_getLast? hl
    have hle : g.lastDelivered ≤ x.1 := Nat.le_of_lt (hmem x hx).2
    refine ⟨by simpa using hle, by simpa using (h.bounded x (hmem x hx).1).2, ?_⟩
    intro p hp
    rcases List.mem_append.mp hp with hp | hp
    · exact Nat.le_trans (hold p hp) hle
    · obtain ⟨e, he, rfl⟩ := List.mem_map.mp hp
      -- The last of an ascending list is its greatest element.
      obtain ⟨pre, hpre⟩ := List.getLast?_eq_some_iff.mp hl
      rw [hpre] at he hsorted
      rcases List.mem_append.mp he with he | he
      · exact Nat.le_of_lt ((List.pairwise_append.mp hsorted).2.2 e he x (by simp))
      · obtain rfl : e = x := by simpa using he
        exact Nat.le_refl _

theorem perform_ordered {c : Cmd} {a : Option UpstreamAnswer} {o : Except Exc (Ans c)}
    (hs : Ordered s) (h : perform i a s c = some (o, s')) : Ordered s' := by
  obtain ⟨h1, h2, h3⟩ | ⟨-, h1, h2, h3⟩ | ⟨-, f, -, h1, h2, h3⟩ | ⟨n, g, hg, h1, h2, h3⟩ |
    ⟨idle, st, n, g, hg, h1, h2, h3⟩ | ⟨m, -, h1, h2, h3⟩ | ⟨m, -, h1, h2, h3⟩ := perform_stream h
  · exact hs.congr h1 h2 h3
  · refine ⟨by rw [h1]; exact hs.sorted, by rw [h1, h2]; exact hs.bounded, ?_, ?_⟩
    · intro g hg
      rw [h3] at hg
      cases hg
      exact Nat.zero_le _
    · intro g hg p hp
      rw [h3] at hg
      cases hg
      cases hp
  · refine ⟨?_, ?_, ?_, ?_⟩
    · rw [h1]
      refine List.pairwise_append.mpr ⟨hs.sorted, List.pairwise_singleton _ _, ?_⟩
      intro x hx y hy
      obtain rfl : y = (s.lastId + 1, f.encode) := by simpa using hy
      exact Nat.lt_succ_of_le (hs.bounded x hx).2
    · intro e he
      rw [h1] at he
      rw [h2]
      rcases List.mem_append.mp he with he | he
      · exact ⟨(hs.bounded e he).1, Nat.le_succ_of_le (hs.bounded e he).2⟩
      · obtain rfl : e = (s.lastId + 1, f.encode) := by simpa using he
        exact ⟨Nat.succ_pos _, Nat.le_refl _⟩
    · intro g hg
      rw [h3] at hg
      rw [h2]
      exact Nat.le_succ_of_le (hs.delivered g hg)
    · rw [h3]
      exact hs.pending
  · obtain ⟨-, hle, hpel⟩ := readGroup_ordered (i := i) (n := n) hs hg
    refine ⟨by rw [h1]; exact hs.sorted, by rw [h1, h2]; exact hs.bounded, ?_, ?_⟩
    · intro g' hg'
      rw [h3] at hg'
      cases hg'
      rw [h2]
      exact hle
    · intro g' hg'
      rw [h3] at hg'
      cases hg'
      exact hpel
  · refine ⟨by rw [h1]; exact hs.sorted, by rw [h1, h2]; exact hs.bounded, ?_, ?_⟩
    · intro g' hg'
      rw [h3] at hg'
      cases hg'
      rw [h2]
      exact hs.delivered g hg
    · intro g' hg' p hp
      rw [h3] at hg'
      cases hg'
      rcases List.mem_append.mp hp with hp | hp
      · exact hs.pending g hg p (List.mem_of_mem_filter hp)
      · obtain ⟨q, hq, hid⟩ := claimScan_mem hp
        rw [← hid]
        exact hs.pending g hg q (List.mem_of_mem_filter hq)
  · refine ⟨by rw [h1]; exact hs.sorted, by rw [h1, h2]; exact hs.bounded, ?_, ?_⟩
    · intro g' hg'
      rw [h3] at hg'
      obtain ⟨g, hg, rfl⟩ := Option.map_eq_some_iff.mp hg'
      rw [h2]
      exact hs.delivered g hg
    · intro g' hg' p hp
      rw [h3] at hg'
      obtain ⟨g, hg, rfl⟩ := Option.map_eq_some_iff.mp hg'
      exact hs.pending g hg p (List.mem_of_mem_filter hp)
  · exact hs.sublist (h1 ▸ List.filter_sublist) h2 h3

theorem exec_ordered {c : Cmd} {ch : Choice} {r : Except Exc (Ans c)} (hs : Ordered s)
    (h : exec i c ch s = some (r, s')) : Ordered s' :=
  exec_keeps (fun _ _ ht => ht.congr (by simp) (by simp) (by simp))
    (fun _ _ _ hp => perform_ordered hs hp) hs h

end Queue
end AdaptiveGateway
