/-
No accepted write is lost, and every replay is the replay of an accepted write.

Only `_ack` deletes an entry, and every path to `_ack` has first seen a 2xx
answer for the entry or committed its `failed_requests` row.  Only `_deliver`
sends, and it sends what it made of the fields of an entry somebody added.  These
are facts about history and stay true whatever the other tasks do, so each worker
can be looked at alone, relying only on the history to grow.
-/
import AdaptiveGateway.Queue.Effects

namespace AdaptiveGateway
namespace Queue

open Codec Concurrent

variable {i : Thread} {s s' t : World} {m : EntryId}

/-! ## The invariant -/

/-- Some replay of the entry was answered 2xx. -/
def Replayed (s : World) (m : EntryId) : Prop :=
  ∃ status, 200 ≤ status ∧ status < 300 ∧ Event.answered m status ∈ s.log

/-- The entry may be deleted: it was replayed, or the row built from its stored
fields has been committed. -/
def Settled (s : World) (m : EntryId) (b : Fields Bytes) : Prop :=
  Replayed s m ∨ ∃ f n e, b.decode = some f ∧ (m, failedRequest f n e) ∈ s.rows

theorem Settled.mono {b : Fields Bytes} (h : Settled s m b) (hg : Grows s s') :
    Settled s' m b := by
  obtain ⟨status, h1, h2, h3⟩ | ⟨f, n, e, hf, hrow⟩ := h
  · exact Or.inl ⟨status, h1, h2, hg.log h3⟩
  · exact Or.inr ⟨f, n, e, hf, hg.rows hrow⟩

/-- Somebody added the entry with fields that decode to `f`. -/
def Known (s : World) (m : EntryId) (f : Fields Text) : Prop :=
  ∃ b, Event.added m b ∈ s.log ∧ b.decode = some f

theorem Known.mono {f : Fields Text} (h : Known s m f) (hg : Grows s s') : Known s' m f := by
  obtain ⟨b, hb, hf⟩ := h
  exact ⟨b, hg.log hb, hf⟩

/-- The request is made of the fields that the entry was added with. -/
def Genuine (s : World) (m : EntryId) (req : HttpRequest (Dict Text Json)) : Prop :=
  ∃ f headers, Known s m f ∧ loadHeaders f = some headers ∧ replayRequest f headers = .ok req

theorem Genuine.mono {req : HttpRequest (Dict Text Json)} (h : Genuine s m req)
    (hg : Grows s s') : Genuine s' m req := by
  obtain ⟨f, headers, hk, hrest⟩ := h
  exact ⟨f, headers, hk.mono hg, hrest⟩

/-- Every entry ever added is in the stream or settled, an id stands for the same
fields for ever, and only what was added has been sent. -/
structure Accounted (s : World) : Prop where
  bounded : ∀ m b, Event.added m b ∈ s.log → m ≤ s.lastId
  unique : ∀ m b b', Event.added m b ∈ s.log → Event.added m b' ∈ s.log → b = b'
  origin : ∀ e ∈ s.stream, Event.added e.1 e.2 ∈ s.log
  kept : ∀ m b, Event.added m b ∈ s.log → s.has m = true ∨ Settled s m b
  genuine : ∀ m t req, Event.sent m t req ∈ s.log → Genuine s m req

theorem accounted_start : Accounted {} :=
  ⟨by simp, by simp, by simp, by simp, by simp⟩

/-- An effect that adds nothing to the stream and deletes only what is settled
keeps the invariant. -/
theorem Accounted.shrink (hs : Accounted s) (hg : Grows s s') (hid : s'.lastId = s.lastId)
    (hlog : ∀ m b, Event.added m b ∈ s'.log → Event.added m b ∈ s.log)
    (hsent : ∀ m t req, Event.sent m t req ∈ s'.log → Genuine s m req)
    (hstream : ∀ e ∈ s'.stream, e ∈ s.stream)
    (hgone : ∀ m b, Event.added m b ∈ s.log → s.has m = true →
      s'.has m = true ∨ Settled s m b) : Accounted s' := by
  refine ⟨fun m b h => ?_, fun m b b' h h' => ?_, fun e he => ?_, fun m b h => ?_,
    fun m t req h => (hsent m t req h).mono hg⟩
  · rw [hid]
    exact hs.bounded m b (hlog m b h)
  · exact hs.unique m b b' (hlog m b h) (hlog m b' h')
  · exact hg.log (hs.origin e (hstream e he))
  · rcases hs.kept m b (hlog m b h) with hin | hset
    · rcases hgone m b (hlog m b h) hin with hin' | hset
      · exact Or.inl hin'
      · exact Or.inr (hset.mono hg)
    · exact Or.inr (hset.mono hg)

theorem Accounted.congr (hs : Accounted s) (hg : Grows s s') (hid : s'.lastId = s.lastId)
    (hlog : ∀ m b, Event.added m b ∈ s'.log → Event.added m b ∈ s.log)
    (hsent : ∀ m t req, Event.sent m t req ∈ s'.log → Genuine s m req)
    (hstream : s'.stream = s.stream) : Accounted s' := by
  refine hs.shrink hg hid hlog hsent (by simp [hstream]) fun m b _ hin => Or.inl ?_
  rw [World.has, hstream]
  exact hin

theorem Accounted.add (hs : Accounted s) (hg : Grows s s') (f : Fields Bytes)
    (hid : s'.lastId = s.lastId + 1) (hlog : s'.log = .added (s.lastId + 1) f :: s.log)
    (hstream : s'.stream = s.stream ++ [(s.lastId + 1, f)]) : Accounted s' := by
  have hold : ∀ m b, Event.added m b ∈ s'.log →
      (m = s.lastId + 1 ∧ b = f) ∨ Event.added m b ∈ s.log := by
    intro m b h
    rw [hlog] at h
    simpa using h
  have hfresh : ∀ b, Event.added (s.lastId + 1) b ∉ s.log := by
    intro b hb
    exact Nat.not_succ_le_self _ (hs.bounded _ b hb)
  have hsent : ∀ m t req, Event.sent m t req ∈ s'.log → Event.sent m t req ∈ s.log := by
    intro m t req h
    rw [hlog] at h
    simpa using h
  refine ⟨fun m b h => ?_, fun m b b' h h' => ?_, fun e he => ?_, fun m b h => ?_,
    fun m t req h => (hs.genuine m t req (hsent m t req h)).mono hg⟩
  · rcases hold m b h with ⟨rfl, -⟩ | h
    · exact Nat.le_of_eq hid.symm
    · rw [hid]
      exact Nat.le_succ_of_le (hs.bounded m b h)
  · rcases hold m b h with ⟨rfl, rfl⟩ | h
    · rcases hold _ b' h' with ⟨-, rfl⟩ | h'
      · rfl
      · exact absurd h' (hfresh b')
    · rcases hold m b' h' with ⟨rfl, -⟩ | h'
      · exact absurd h (hfresh b)
      · exact hs.unique m b b' h h'
  · rw [hstream] at he
    rcases List.mem_append.mp he with he | he
    · exact hg.log (hs.origin e he)
    · obtain rfl := List.mem_singleton.mp he
      rw [hlog]
      exact List.mem_cons_self
  · rcases hold m b h with ⟨rfl, rfl⟩ | h
    · exact Or.inl (has_iff.mpr ⟨b, by simp [hstream]⟩)
    · rcases hs.kept m b h with hin | hset
      · obtain ⟨f', hf'⟩ := has_iff.mp hin
        exact Or.inl (has_iff.mpr ⟨f', by simp [hstream, hf']⟩)
      · exact Or.inr (hset.mono hg)

/-- The entry was added and may be deleted. -/
def Cleared (s : World) (m : EntryId) : Prop :=
  ∃ b, Event.added m b ∈ s.log ∧ Settled s m b

/-- What the invariant asks of a command: deletions are cleared, and requests
genuine. -/
structure Permitted (s : World) (c : Cmd) : Prop where
  xdel : ∀ m, c = .xdel m → Cleared s m
  send : ∀ m req, c = .send m req → Genuine s m req

/-- A command of which nothing is asked. -/
def Quiet : Cmd → Prop
  | .xdel _ | .send _ _ => False
  | _ => True

theorem Quiet.permitted {c : Cmd} (h : Quiet c) : Permitted s c := by
  refine ⟨?_, ?_⟩
  · rintro m rfl
    exact h.elim
  · rintro m req rfl
    exact h.elim

theorem perform_accounted {c : Cmd} {a : Option UpstreamAnswer} {o : Except Exc (Ans c)}
    (hs : Accounted s) (hc : Permitted s c) (h : perform i a s c = some (o, s')) :
    Accounted s' := by
  have hg := perform_grows h
  by_cases hadd : ∃ d f, c = .xadd d f
  · obtain ⟨d, f, rfl⟩ := hadd
    simp only [perform] at h
    split at h <;> cases h
    · exact hs
    · exact hs.add hg f.encode rfl rfl rfl
  · have hlog : ∀ m b, Event.added m b ∈ s'.log → Event.added m b ∈ s.log := by
      intro m b hm
      obtain hl | ⟨e, he, hl⟩ := perform_log h <;> rw [hl] at hm
      · exact hm
      · rcases List.mem_cons.mp hm with rfl | hm
        · obtain ⟨d, f, hc, -, -⟩ := he.cmd
          exact absurd ⟨d, f, hc⟩ hadd
        · exact hm
    have hsent : ∀ m t req, Event.sent m t req ∈ s'.log → Genuine s m req := by
      intro m t req hm
      obtain hl | ⟨e, he, hl⟩ := perform_log h <;> rw [hl] at hm
      · exact hs.genuine m t req hm
      · rcases List.mem_cons.mp hm with rfl | hm
        · exact hc.send m req he.cmd.1
        · exact hs.genuine m t req hm
    obtain ⟨h1, h2, -⟩ | ⟨-, h1, h2, -⟩ | ⟨d, f, hx, -⟩ | ⟨n, g, -, h1, h2, -⟩ |
      ⟨idle, st, n, g, -, h1, h2, -⟩ | ⟨m, -, h1, h2, -⟩ | ⟨m, hx, h1, h2, -⟩ := perform_stream h
    · exact hs.congr hg h2 hlog hsent h1
    · exact hs.congr hg h2 hlog hsent h1
    · exact absurd ⟨d, f, hx⟩ hadd
    · exact hs.congr hg h2 hlog hsent h1
    · exact hs.congr hg h2 hlog hsent h1
    · exact hs.congr hg h2 hlog hsent h1
    · refine hs.shrink hg h2 hlog hsent (fun e he => ?_) fun m' b hb hin => ?_
      · rw [h1] at he
        exact List.mem_of_mem_filter he
      · by_cases hm : m' = m
        · subst hm
          obtain ⟨b', hb', hset⟩ := hc.xdel m' hx
          rw [hs.unique m' b b' hb hb']
          exact Or.inr hset
        · obtain ⟨f, hf⟩ := has_iff.mp hin
          exact Or.inl (has_iff.mpr ⟨f, by simp [h1, hf, hm]⟩)

theorem exec_accounted {c : Cmd} {ch : Choice} {r : Except Exc (Ans c)} (hs : Accounted s)
    (hc : Permitted s c) (h : exec i c ch s = some (r, s')) : Accounted s' := by
  refine exec_keeps (fun t r ht => ?_) (fun _ _ _ hp => perform_accounted hs hc hp) hs h
  have hold : ∀ e, e ∈ (noteReply i t c r).log → e ∈ t.log ∨ ∃ m, e = .acked m := by
    intro e he
    obtain hl | ⟨m, -, hl⟩ := noteReply_log (i := i) (s := t) c r <;> rw [hl] at he
    · exact Or.inl he
    · rcases List.mem_cons.mp he with rfl | he
      · exact Or.inr ⟨m, rfl⟩
      · exact Or.inl he
  refine ht.congr (noteReply_grows c r) (by simp) (fun m b hm => ?_) (fun m k req hm => ?_)
    (by simp)
  · simpa using hold _ hm
  · exact ht.genuine m k req (by simpa using hold _ hm)

/-! ## The tasks -/

theorem Cleared.mono (h : Cleared s m) (hg : Grows s s') : Cleared s' m := by
  obtain ⟨b, hb, hset⟩ := h
  exact ⟨b, hg.log hb, hset.mono hg⟩

theorem Known.cleared_of_replayed {f : Fields Text} (h : Known s m f) (hr : Replayed s m) :
    Cleared s m := by
  obtain ⟨b, hb, -⟩ := h
  exact ⟨b, hb, Or.inl hr⟩

/-- The tasks rely on history alone, and a handler that has returned an id has
added its write under it. -/
def ledger (cfg : Config) (writes : Nat → Write) : Contract (machine cfg writes) Guard.any where
  I := Accounted
  R _ := Grows
  G _ := Grows
  Q
    | .client n, .ok (some id), s => ∃ now, Event.added id (entry (writes n) now).encode ∈ s.log
    | _, _, _ => True
  refl _ := Grows.refl
  trans _ _ _ _ := Grows.trans
  others _ _ _ _ _ _ _ h := h
  env d s s' _ hI h := by
    cases h
    have hg : Grows s (advance d s) := ⟨List.Subset.refl _, List.Subset.refl _⟩
    exact ⟨hI.congr hg rfl (fun _ _ h => h) hI.genuine rfl, fun _ => hg⟩
  crash i s _ hI := by
    have hg : Grows s (dropThread i s) := ⟨List.Subset.refl _, List.Subset.refl _⟩
    exact ⟨hI.congr hg rfl (fun _ _ h => h) hI.genuine rfl, fun _ _ => hg⟩

section Tasks

variable {cfg : Config} {writes : Nat → Write} {f : Fields Text}

/-- A permitted command meets its obligations. -/
theorem await_wp {c : Cmd} {Q : Except Exc (Ans c) → World → Prop} (hc : Permitted s c)
    (hQ : ∀ ch r s' t, exec i c ch s = some (r, s') → Grows s' t → Q r t) :
    (await c).wp ((ledger cfg writes).pact i) Q s := by
  refine Prog.wp_issue ?_
  rintro r s' ⟨ch, -, hI, hexec⟩
  exact ⟨exec_accounted hI hc hexec, exec_grows hexec, fun t _ ht => hQ ch r s' t hexec ht⟩

/-- Quiet programs keep whatever growth of the history keeps. -/
theorem quiet_wp {α : Type} {p : Prog α} {L : World → Prop} (hp : p.Issues Quiet)
    (hL : ∀ s t, L s → Grows s t → L t) (hs : L s) :
    p.wp ((ledger cfg writes).pact i) (fun _ t => L t) s := by
  refine Prog.wp_of_issues hp ?_ hs
  rintro c s r s' hc hLs ⟨ch, -, hI, hexec⟩
  have hg := exec_grows hexec
  exact ⟨exec_accounted hI hc.permitted hexec, hg, fun t _ ht => hL s t hLs (hg.trans ht)⟩

/-- One quiet command, in front of what still knows the entry. -/
theorem known_seq {c : Cmd} {α : Type} {k : Ans c → Prog α} (hc : Quiet c)
    (h : Known s m f)
    (hk : ∀ a t, Known t m f →
      (k a).wp ((ledger cfg writes).pact i) (fun _ u => Known u m f) t) :
    (Prog.bind (await c) k).wp ((ledger cfg writes).pact i) (fun _ u => Known u m f) s :=
  Prog.wp_seq (quiet_wp (Prog.Issues.issue hc) (fun _ _ h => h.mono) h) (fun _ _ h => h) hk

theorem ack_wp (h : Cleared s m) (hk : Known s m f) :
    (ack m).wp ((ledger cfg writes).pact i) (fun _ t => Known t m f) s := by
  have hxack : (await (.xack m)).wp ((ledger cfg writes).pact i)
      (fun _ t => Cleared t m ∧ Known t m f) s :=
    quiet_wp (Prog.Issues.issue (S := Quiet) trivial)
      (fun _ _ h hg => ⟨h.1.mono hg, h.2.mono hg⟩) ⟨h, hk⟩
  refine Prog.wp_seq hxack (fun _ _ h => h.2) fun _ t ht => ?_
  have hxdel : (await (.xdel m)).wp ((ledger cfg writes).pact i) (fun _ u => Known u m f) t :=
    await_wp ⟨fun _ hc => by cases hc; exact ht.1, by simp⟩
      fun _ _ _ _ he hg => ht.2.mono ((exec_grows he).trans hg)
  refine Prog.wp_seq hxdel (fun _ _ h => h) fun _ u hu => ?_
  refine known_seq trivial hu fun _ v hv => ?_
  exact quiet_wp (Prog.Issues.issue (S := Quiet) trivial) (fun _ _ h => h.mono) hv

theorem deadLetter_wp (h : Known s m f) (n : Nat) (e : Option Text) :
    (deadLetter cfg m f n e).wp ((ledger cfg writes).pact i)
      (fun r t => Known t m f ∧ (r = .ok () → Cleared t m)) s := by
  by_cases hdeep : headersTooDeep cfg f
  · rw [deadLetter, if_pos hdeep]
    exact ⟨h, fun hr => by cases hr⟩
  rw [deadLetter, if_neg hdeep]
  refine await_wp (Quiet.permitted trivial) fun ch r s₁ t he hg => ?_
  refine ⟨h.mono ((exec_grows he).trans hg), ?_⟩
  rintro rfl
  obtain ⟨b, hb, hf⟩ := h
  obtain ⟨u, s₂, hp, hs₁⟩ := exec_ok he
  have hrow : (m, failedRequest f n e) ∈ s₂.rows := by
    simp only [perform] at hp
    split at hp <;> cases hp
    exact List.mem_cons_self
  have hcleared : Cleared s₂ m :=
    ⟨b, (perform_grows hp).log hb, Or.inr ⟨f, n, e, hf, hrow⟩⟩
  exact hcleared.mono (Grows.trans (hs₁ ▸ noteReply_grows _ _) hg)

/-- The row is committed before the entry is deleted. -/
theorem deadLetter_ack_wp (h : Known s m f) (n : Nat) (e : Option Text) :
    (Prog.bind (deadLetter cfg m f n e) fun _ => ack m).wp ((ledger cfg writes).pact i)
      (fun _ t => Known t m f) s :=
  Prog.wp_seq (deadLetter_wp h n e) (fun _ _ h => h.1) fun _ _ h => ack_wp (h.2 rfl) h.1

theorem boundedResponse_status {a : UpstreamAnswer} {resp : UpstreamResponse}
    (h : boundedResponse cfg a = .ok resp) : resp.status = a.status := by
  unfold boundedResponse at h
  split at h
  · cases h
  · split at h
    · cases h
      rfl
    · cases h

theorem recv_wp (h : Known s m f) :
    (await (.recv m)).wp ((ledger cfg writes).pact i) (fun r t => Known t m f ∧
      ∀ a, r = .ok a → Event.answered m a.status ∈ t.log) s := by
  refine await_wp (Quiet.permitted trivial) fun ch r s₁ t he hg => ?_
  refine ⟨h.mono ((exec_grows he).trans hg), ?_⟩
  rintro a rfl
  obtain ⟨u, s₂, hp, hs₁⟩ := exec_ok he
  have hans : Event.answered m a.status ∈ s₂.log := by
    simp only [perform] at hp
    split at hp <;> cases hp
    exact List.mem_cons_self
  exact (Grows.trans (hs₁ ▸ noteReply_grows _ _) hg).log hans

/-- `_deliver` takes a replay for successful only after a 2xx answer. -/
theorem upstreamCall_wp (h : Known s m f) {headers : Dict Text Json}
    (hheaders : loadHeaders f = some headers) :
    (upstreamCall cfg m f headers).wp ((ledger cfg writes).pact i)
      (fun r t => Known t m f ∧ ∀ o, r = .ok o → o.success = true → Replayed t m) s := by
  refine Prog.wp_except (Prog.wp_mono (Q := fun r t => Known t m f ∧
    ∀ o, r = .ok o → o.success = true → Replayed t m) (fun r t hr => ?_) ?_)
  · cases r with
    | ok o => exact hr
    | error e =>
      cases hn : transportName e with
      | none => simpa [hn] using hr.1
      | some name => simpa [hn] using hr.1
  · cases hreq : replayRequest f headers with
    | error e => exact ⟨h, by simp⟩
    | ok req =>
      change Prog.wp _ (Prog.bind (await (.send m req)) _) _ s
      have hsend : (await (.send m req)).wp ((ledger cfg writes).pact i)
          (fun _ t => Known t m f) s := by
        refine await_wp ⟨by simp, ?_⟩ fun _ _ _ _ he hg => h.mono ((exec_grows he).trans hg)
        rintro m' req' hc
        cases hc
        exact ⟨f, headers, h, hheaders, hreq⟩
      refine Prog.wp_seq hsend (fun _ _ h => ⟨h, by simp⟩) fun _ t ht => ?_
      refine Prog.wp_seq (recv_wp ht) (fun _ _ h => ⟨h.1, by simp⟩) fun a u hu => ?_
      refine Prog.wp_bind ?_
      cases hresp : boundedResponse cfg a with
      | error e => exact ⟨hu.1, by simp⟩
      | ok resp =>
        refine ⟨hu.1, ?_⟩
        rintro o ⟨⟩ hsucc
        rw [statusOutcome, boundedResponse_status hresp] at hsucc
        obtain ⟨h200, h300⟩ : 200 ≤ a.status ∧ a.status < 300 := by simpa using hsucc
        exact ⟨a.status, h200, h300, hu.2 a rfl⟩

theorem replay_wp (h : Known s m f) {headers : Dict Text Json}
    (hheaders : loadHeaders f = some headers) (n : Nat) :
    (replay cfg m f headers n).wp ((ledger cfg writes).pact i) (fun _ t => Known t m f) s := by
  refine known_seq trivial h fun _ t h => ?_
  refine known_seq trivial h fun now t h => ?_
  refine known_seq trivial h fun _ t h => ?_
  refine Prog.wp_seq (upstreamCall_wp h hheaders) (fun _ _ h => h.1) fun o t h => ?_
  split
  next hsucc => exact ack_wp (h.1.cleared_of_replayed (h.2 o rfl hsucc)) h.1
  next =>
    split
    next => exact deadLetter_ack_wp h.1 n o.error
    next => exact h.1

theorem attemptsOf_wp (h : Known s m f) :
    (attemptsOf m).wp ((ledger cfg writes).pact i) (fun _ t => Known t m f) s :=
  known_seq trivial h fun _ _ h => h

theorem deliverDue_wp (h : Known s m f) :
    (deliverDue cfg m f).wp ((ledger cfg writes).pact i) (fun _ t => Known t m f) s := by
  refine Prog.wp_seq (attemptsOf_wp h) (fun _ _ h => h) fun n t h => ?_
  simp only
  split
  next => exact h
  next =>
    split
    next headers service hheaders _ =>
      refine known_seq trivial h fun now t h => ?_
      split
      next => exact h
      next =>
        split
        next => exact deadLetter_ack_wp h _ _
        next => exact replay_wp h hheaders _
    next => exact h

theorem deliver_wp (h : Known s m f) :
    (deliver cfg m f).wp ((ledger cfg writes).pact i) (fun _ t => Known t m f) s := by
  refine known_seq trivial h fun due t h => ?_
  cases due with
  | none => exact deliverDue_wp h
  | some due =>
    refine known_seq trivial h fun now t h => ?_
    split
    next => exact h
    next => exact deliverDue_wp h

theorem bury_wp (h : Known s m f) :
    (bury cfg m f).wp ((ledger cfg writes).pact i) (fun _ t => Known t m f) s :=
  Prog.wp_seq (attemptsOf_wp h) (fun _ _ h => h) fun _ _ h => deadLetter_ack_wp h _ _

theorem releaseLock_issues (token : Token) :
    (releaseLock m token).Issues Quiet := by
  refine Prog.Issues.except (Prog.Issues.issue (S := Quiet) trivial) fun e q hq => ?_
  split at hq <;> cases hq
  trivial

theorem acquireLock_issues (ttl : Nat) :
    (acquireLock m ttl).Issues Quiet := by
  refine Prog.Issues.bind (Prog.Issues.issue (S := Quiet) trivial) fun token => ?_
  refine Prog.Issues.except ?_ fun e q hq => ?_
  · exact Prog.Issues.bind (Prog.Issues.issue (S := Quiet) trivial) fun _ => trivial
  · split at hq <;> cases hq
    trivial

theorem handle_wp (h : Known s m f) :
    (handle cfg m f).wp ((ledger cfg writes).pact i) (fun _ _ => True) s := by
  refine Prog.wp_seq
    (quiet_wp (L := fun t => Known t m f) (acquireLock_issues _) (fun _ _ h => h.mono) h)
    (fun _ _ _ => trivial) fun lease t h => ?_
  cases lease with
  | none => trivial
  | some lease =>
    refine Prog.wp_finally (Prog.wp_mono (Q := fun _ _ => True) (fun r t _ => ?_) ?_)
    · refine Prog.wp_mono (fun r _ _ => ?_)
        (quiet_wp (L := fun _ => True) (releaseLock_issues lease) (fun _ _ _ _ => trivial) trivial)
      cases r <;> trivial
    · refine Prog.wp_except (Prog.wp_mono (fun r t hr => ?_) (deliver_wp h))
      cases r with
      | ok _ => trivial
      | error e =>
        by_cases he : isMalformed e = true
        · simpa [he] using Prog.wp_mono (fun _ _ _ => trivial) (bury_wp hr)
        · simp [he]

/-! ## Batches -/

theorem decodeEntries_mem {es : List (EntryId × Fields Bytes)}
    {fs : List (EntryId × Fields Text)} (h : decodeEntries es = some fs) :
    ∀ e ∈ fs, ∃ b, (e.1, b) ∈ es ∧ b.decode = some e.2 := by
  induction es generalizing fs with
  | nil =>
    cases h
    simp
  | cons x xs ih =>
    simp only [decodeEntries] at h
    split at h
    next f fs' hf hfs =>
      cases h
      intro e he
      rcases List.mem_cons.mp he with rfl | he
      · exact ⟨x.2, by simp, hf⟩
      · obtain ⟨b, hb, hd⟩ := ih hfs e he
        exact ⟨b, List.mem_cons_of_mem x hb, hd⟩
    next => cases h

/-- What is read from the stream has been added. -/
theorem Accounted.known (hs : Accounted s) {es : List (EntryId × Fields Bytes)}
    {fs : List (EntryId × Fields Text)} (hes : es ⊆ s.stream) (h : decodeEntries es = some fs) :
    ∀ e ∈ fs, Known s e.1 e.2 := by
  intro e he
  obtain ⟨b, hb, hd⟩ := decodeEntries_mem h e he
  exact ⟨b, hs.origin _ (hes hb), hd⟩

theorem xreadgroup_known {n : Nat} {ch : Choice} {es : List (EntryId × Fields Text)}
    (hs : Accounted s) (h : exec i (.xreadgroup n) ch s = some (.ok es, s')) :
    ∀ e ∈ es, Known s e.1 e.2 := by
  obtain ⟨u, s₁, hp, -⟩ := exec_ok h
  simp only [perform] at hp
  split at hp
  next => cases hp
  next g hg =>
    split at hp
    next entries hd =>
      cases hp
      refine hs.known (fun e he => ?_) hd
      exact List.mem_of_mem_filter (List.mem_of_mem_take he)
    next => cases hp

theorem xautoclaim_known {idle : Time} {start : EntryId} {n : Nat} {ch : Choice}
    {c : EntryId × List (EntryId × Option (Fields Text))} (hs : Accounted s)
    (h : exec i (.xautoclaim idle start n) ch s = some (.ok c, s')) :
    ∀ e ∈ c.2, ∀ f, e.2 = some f → Known s e.1 f := by
  obtain ⟨u, s₁, hp, -⟩ := exec_ok h
  simp only [perform] at hp
  split at hp
  next => cases hp
  next g hg =>
    split at hp
    next entries hd =>
      cases hp
      rintro e he f hf
      obtain ⟨x, hx, rfl⟩ := List.mem_map.mp he
      cases hf
      exact hs.known (fun e he => List.mem_of_mem_filter he) hd x hx
    next => cases hp

/-- A loop over a batch of which something is known that stays true. -/
theorem batch_wp {β : Type} {handle : β → Prog Unit} {K : World → β → Prop}
    (hK : ∀ s t b, K s b → Grows s t → K t b)
    (hhandle : ∀ b t, K t b →
      (handle b).wp ((ledger cfg writes).pact i) (fun _ _ => True) t)
    (bs : List β) (hs : ∀ b ∈ bs, K s b) :
    (Prog.forEach handle bs).wp ((ledger cfg writes).pact i) (fun _ _ => True) s := by
  refine Prog.wp_forEach (L := fun t => ∀ b ∈ bs, K t b) (fun _ _ => trivial) bs ?_ hs
  intro b hb t ht
  have hmono : ∀ u v, (∀ b ∈ bs, K u b) → Grows u v → ∀ b ∈ bs, K v b :=
    fun u v h hg b hb => hK u v b (h b hb) hg
  refine Prog.wp_mono (fun r u hu => ?_)
    (Prog.wp_frame hmono hmono (hhandle b t (ht b hb)) ht)
  cases r with
  | ok _ => exact hu.2
  | error e => trivial

theorem tick_wp : (tick cfg).wp ((ledger cfg writes).pact i) (fun _ _ => True) s := by
  have hread : (await (.xreadgroup 16)).wp ((ledger cfg writes).pact i)
      (fun r t => ∀ es, r = .ok es → ∀ e ∈ es, Known t e.1 e.2) s := by
    refine Prog.wp_issue ?_
    rintro r s' ⟨ch, -, hI, hexec⟩
    have hg := exec_grows hexec
    refine ⟨exec_accounted hI (Quiet.permitted (c := .xreadgroup 16) trivial) hexec, hg,
      fun t _ ht => ?_⟩
    rintro es rfl e he
    exact (xreadgroup_known hI hexec e he).mono (hg.trans ht)
  have hclaim : ∀ {t : World} (cursor : EntryId),
      (await (.xautoclaim (seconds cfg.settings.queueClaimIdleSeconds) cursor 64)).wp
        ((ledger cfg writes).pact i)
        (fun r t => ∀ c, r = .ok c → ∀ e ∈ c.2, ∀ f, e.2 = some f → Known t e.1 f) t := by
    intro t cursor
    refine Prog.wp_issue ?_
    rintro r s' ⟨ch, -, hI, hexec⟩
    have hg := exec_grows hexec
    refine ⟨exec_accounted hI (Quiet.permitted (c := .xautoclaim _ _ _) trivial) hexec, hg,
      fun t _ ht => ?_⟩
    rintro es rfl e he f hf
    exact (xautoclaim_known hI hexec e he f hf).mono (hg.trans ht)
  refine Prog.wp_seq hread (fun _ _ _ => trivial) fun new t ht => ?_
  have hnew : (Prog.forEach (fun e => handle cfg e.1 e.2) new).wp ((ledger cfg writes).pact i)
      (fun _ _ => True) t :=
    batch_wp (K := fun t e => Known t e.1 e.2) (fun _ _ _ h => h.mono) (fun _ _ h => handle_wp h)
      new (ht new rfl)
  refine Prog.wp_seq hnew (fun _ _ _ => trivial) fun _ t _ => ?_
  refine Prog.wp_seq (quiet_wp (L := fun _ => True) (Prog.Issues.issue (S := Quiet) trivial)
    (fun _ _ _ _ => trivial) trivial) (fun _ _ _ => trivial) fun cursor t _ => ?_
  refine Prog.wp_seq (hclaim cursor) (fun _ _ _ => trivial) fun claimed t ht => ?_
  have hcursor : (await (.setCursor claimed.1)).wp ((ledger cfg writes).pact i)
      (fun _ t => ∀ e ∈ claimed.2, ∀ f, e.2 = some f → Known t e.1 f) t :=
    quiet_wp (Prog.Issues.issue (S := Quiet) trivial) (fun _ _ h hg e he f hf => (h e he f hf).mono hg)
      (ht claimed rfl)
  refine Prog.wp_seq hcursor (fun _ _ _ => trivial) fun _ t ht => ?_
  refine batch_wp (K := fun t (e : EntryId × Option (Fields Text)) =>
    ∀ f, e.2 = some f → Known t e.1 f) (fun _ _ _ h hg f hf => (h f hf).mono hg)
    (fun e t h => ?_) claimed.2 ht
  obtain ⟨m, fields⟩ := e
  cases fields with
  | none => trivial
  | some f => exact handle_wp (h f rfl)

theorem round_wp : (round cfg).wp ((ledger cfg writes).pact i) (fun _ _ => True) s := by
  refine Prog.wp_seq (L := fun _ _ => True) ?_ (fun _ _ _ => trivial) fun _ _ _ => trivial
  refine Prog.wp_except (Prog.wp_mono (Q := fun _ _ => True) (fun r t _ => ?_) ?_)
  · cases r with
    | ok _ => trivial
    | error e =>
      by_cases he : e = .cancelled
      · simp [he]
      · simp [he]
  · refine Prog.wp_seq (quiet_wp (L := fun _ => True) ?_ (fun _ _ _ _ => trivial) trivial)
      (fun _ _ _ => trivial) fun _ _ _ => tick_wp
    exact Prog.Issues.bind (Prog.Issues.issue (S := Quiet) trivial) fun _ => trivial

theorem enqueueWrite_wp (w : Write) :
    (enqueueWrite cfg w).wp ((ledger cfg writes).pact i) (fun r t => ∀ id, r = .ok id →
      ∃ now, Event.added id (entry w now).encode ∈ t.log) s := by
  unfold enqueueWrite
  split
  next =>
    refine Prog.wp_seq (quiet_wp (L := fun _ => True) (Prog.Issues.issue (S := Quiet) trivial)
      (fun _ _ _ _ => trivial) trivial) (by simp) fun now t _ => ?_
    have hadd : (await (.xadd cfg.settings.queueMaxDepth (entry w now))).wp
        ((ledger cfg writes).pact i)
        (fun r u => ∀ id, r = .ok (some id) →
          Event.added id (entry w now).encode ∈ u.log) t := by
      refine await_wp (Quiet.permitted trivial) fun ch r s₁ u he hg => ?_
      rintro id rfl
      obtain ⟨a, s₂, hp, hs₁⟩ := exec_ok he
      have hlog : Event.added id (entry w now).encode ∈ s₂.log := by
        simp only [perform] at hp
        split at hp <;> cases hp
        exact List.mem_cons_self
      exact (Grows.trans (hs₁ ▸ noteReply_grows _ _) hg).log hlog
    refine Prog.wp_seq hadd (by simp) fun result u hu => ?_
    cases result with
    | none => simp
    | some id =>
      rintro _ ⟨⟩
      exact ⟨now, hu id rfl⟩
  next => simp

theorem boot_wp : (boot cfg writes i).wp ((ledger cfg writes).pact i) ((ledger cfg writes).Q i) s := by
  cases i with
  | worker n => exact Prog.wp_mono (fun _ _ _ => trivial) round_wp
  | client n =>
    refine Prog.wp_seq (enqueueWrite_wp (writes n)) (fun _ _ _ => trivial) fun id t ht => ?_
    exact ht id rfl

theorem again_wp {r : Except Exc (Option EntryId)} {p : Prog (Option EntryId)}
    (h : again cfg i r = some p) :
    p.wp ((ledger cfg writes).pact i) ((ledger cfg writes).Q i) s := by
  cases i with
  | worker n =>
    cases r with
    | ok a =>
      cases h
      exact Prog.wp_mono (fun _ _ _ => trivial) round_wp
    | error e => cases h
  | client n => cases h

end Tasks

/-! ## Runs -/

section Runs

variable {cfg : Config} {writes : Nat → Write} {q q' : Pool Thread Cmd Ans Exc (Option EntryId) World}

theorem ledger_sound
    (h : (machine cfg writes).Reach Guard.any ((machine cfg writes).start {}) q) :
    Accounted q.state ∧ ∀ i p, q.prog i = some p → (ledger cfg writes).Kept i q.state p :=
  (ledger cfg writes).sound accounted_start (fun _ _ _ _ => boot_wp)
    (fun _ _ _ _ h _ _ => again_wp h) h

theorem reach_grows (h : (machine cfg writes).Reach Guard.any q q') : Grows q.state q'.state := by
  refine h.state_invariant (J := Grows q.state) ?_ ?_ ?_ (Grows.refl _)
  · exact fun i c ch s r s' _ hs he => hs.trans (exec_grows he)
  · exact fun i s _ hs => hs.trans ⟨List.Subset.refl _, List.Subset.refl _⟩
  · rintro d s s' - hs ⟨⟩
    exact hs.trans ⟨List.Subset.refl _, List.Subset.refl _⟩

/-- An id that `enqueue_write` has returned is in the stream, was replayed with a
2xx answer, or has its row in `failed_requests`, in every state from then on. -/
theorem accepted_write_never_lost {n : Nat} {id : EntryId}
    (hq : (machine cfg writes).Reach Guard.any ((machine cfg writes).start {}) q)
    (hret : q.prog (.client n) = some (.ret (some id)))
    (hq' : (machine cfg writes).Reach Guard.any q q') :
    q'.state.has id = true ∨ Replayed q'.state id ∨
      ∃ now retries error,
        (id, failedRequest (entry (writes n) now) retries error) ∈ q'.state.rows := by
  obtain ⟨hI, hkept⟩ := ledger_sound hq
  obtain ⟨now, hadded⟩ := hkept (.client n) _ hret q.state hI (Grows.refl _)
  obtain ⟨hI', -⟩ := ledger_sound (hq.trans hq')
  rcases hI'.kept id _ ((reach_grows hq').log hadded) with hin | hreplayed | ⟨f, k, e, hf, hrow⟩
  · exact Or.inl hin
  · exact Or.inr (Or.inl hreplayed)
  · rw [Fields.decode_encode] at hf
    cases hf
    exact Or.inr (Or.inr ⟨now, k, e, hrow⟩)

/-- What `enqueue_write` has returned to a handler. -/
def returned (p : Pool Thread Cmd Ans Exc (Option EntryId) World) (n : Nat) : Option EntryId :=
  match p.prog (.client n) with
  | some (.ret r) => r
  | _ => none

/-- The write is accepted, read, replayed and, after a 200, deleted. -/
theorem accepted_write_replayed_mock :
    let M := machine mockConfig fun _ => mockWrite
    ∃ q q', M.Reach Guard.any (M.start {}) q ∧ q.prog (.client 0) = some (.ret (some 1)) ∧
      M.Reach Guard.any q q' ∧ q'.state.has 1 = false ∧
      (Replayed q'.state 1 ∨ ∃ now retries error,
        (1, failedRequest (entry mockWrite now) retries error) ∈ q'.state.rows) := by
  intro M
  have hrun : ((M.run (M.start {}) (steps (.client 0) 2)).bind fun q =>
      (M.run q (steps (.worker 0) 11 ++ [.act (.worker 0) (.answer ⟨200, Dict.empty, [], []⟩)] ++
        steps (.worker 0) 5)).map fun q' => (returned q 0, q'.state.has 1)) =
      some (some 1, false) := by decide +kernel
  obtain ⟨q, hq, hmap⟩ := Option.bind_eq_some_iff.mp hrun
  obtain ⟨q', hq', hobs⟩ := Option.map_eq_some_iff.mp hmap
  obtain ⟨hret, hgone⟩ := Prod.mk.inj hobs
  have hprog : q.prog (.client 0) = some (.ret (some 1)) := by
    unfold returned at hret
    split at hret
    next r hr => rw [hr, hret]
    next => cases hret
  have hreach := Machine.reach_of_run hq
  have hreach' := Machine.reach_of_run hq'
  refine ⟨q, q', hreach, hprog, hreach', hgone, ?_⟩
  rcases accepted_write_never_lost hreach hprog hreach' with hin | h
  · rw [hgone] at hin
    cases hin
  · exact h

end Runs

end Queue
end AdaptiveGateway
