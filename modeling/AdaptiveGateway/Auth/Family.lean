/-
What a detected reuse does to the family.

The family of a call are the tokens that the user had when the call began, and all
that were exchanged for them since.  The update that a reuse starts revokes the
rows of its snapshot.  A token that another call gives in exchange for one of these
after the snapshot, and commits before the update comes to the old row, is not among
them and stays good.  In runs where no family update commits after it was overtaken
in this way, the family is dead from that commit on.
-/
import AdaptiveGateway.Auth.Rotation

namespace AdaptiveGateway
namespace Auth

open Codec Concurrent

variable {svc : Service} {g : Guard Thread Cmd World Choice Event} {s s' : World} {i : Thread}

/-- The tokens that the user had when the call began. -/
def Sweep.roots (w : Sweep) : Set Hash := fun k => k ∈ w.existing

/-- In every run, a call that reports a reuse has committed its update over the rows
of the user; and once a call has done so, no token of its family is exchanged any
more, and every successful refresh of such a token had committed before. -/
def FamilyDead (svc : Service) (g : Guard Thread Cmd World Choice Event) : Prop :=
  ∀ q, (gateway svc).Reach g ((gateway svc).start {}) q →
    (∀ i, q.prog i = some (.raise reused) → ∃ w ∈ q.state.swept, w.thread = i ∧
      ∃ h row, presented svc i = some h ∧ q.state.tokens.get? h = some row ∧
        w.user = row.userId) ∧
    ∀ w ∈ q.state.swept, ∀ q', (gateway svc).Reach g q q' →
      ∀ h, (q'.state.ledger svc).Descends w.roots h →
        (∀ k row, q'.state.tokens.get? k = some row → row.succeeds svc h →
          ∃ row', q.state.tokens.get? k = some row' ∧ row'.succeeds svc h) ∧
        ∀ i raw t, svc.requests i = .refresh raw → hashToken svc raw = h →
          q'.prog i = some (.ret (.tokens t)) →
          ∃ row', q.state.tokens.get? (hashToken svc t.refreshToken) = some row' ∧
            row'.succeeds svc h

/-- Since the call's update took its snapshot, a token of the family that is in it
has been exchanged. -/
def Overtaken (svc : Service) (s : World) (i : Thread) (u : UserId) (seen : List Hash) : Prop :=
  ∃ p ∈ seen, (s.ledger svc).Descends (fun k => k ∈ s.existing i u) p ∧
    ∃ k row, s.tokens.get? k = some row ∧ row.succeeds svc p ∧ k ∉ seen

/-- No family update takes effect that was overtaken. -/
def undisturbed (svc : Service) : Guard Thread Cmd World Choice Event where
  act i c ch s := c = .commit → (∀ e, ch ≠ .refused e) →
    ∀ u seen, s.sweep i = some (u, seen) → ¬Overtaken svc s i u seen
  crash _ _ := True
  env _ _ := True

/-! ## Steps of the ledger -/

/-- Only a commit changes what is committed. -/
theorem exec_rows {c : Cmd} {ch : Choice} {r : Except Fault (Ans c)}
    (h : exec i c ch s = some (r, s')) :
    (c = .commit ∧ (∀ e, ch ≠ .refused e) ∧ s' = s.commit i) ∨
    ((∀ k, s'.tokens.get? k = s.tokens.get? k) ∧ s'.swept = s.swept) := by
  by_cases hch : ∃ e, ch = .refused e
  · obtain ⟨e, rfl⟩ := hch
    obtain ⟨rfl, -⟩ := exec_refused h
    exact Or.inr ⟨fun _ => rfl, rfl⟩
  have hne : ∀ e, ch ≠ .refused e := fun e he => hch ⟨e, he⟩
  by_cases hc : c.looks = true
  · obtain ⟨rfl, -⟩ := exec_looks hc h
    exact Or.inr ⟨fun _ => rfl, rfl⟩
  cases c with
  | commit =>
    refine Or.inl ⟨rfl, hne, ?_⟩
    cases ch with
    | refused e => exact absurd rfl (hne e)
    | done | lost =>
      cases h
      rfl
    | text | count | order => cases h
  | openSession | closeSession =>
    right
    cases ch with
    | done =>
      cases h
      exact ⟨fun _ => rfl, rfl⟩
    | refused e => exact absurd rfl (hne e)
    | text | count | order | lost => cases h
  | selectForUpdate k =>
    right
    cases ch with
    | done =>
      simp only [exec] at h
      split at h
      next =>
        cases h
        exact ⟨fun _ => rfl, rfl⟩
      next =>
        obtain ⟨T, hT, heq⟩ := Option.map_eq_some_iff.mp h
        cases heq
        exact ⟨Table.lock_get? hT, rfl⟩
    | refused e => exact absurd rfl (hne e)
    | text | count | order | lost => cases h
  | scan w =>
    right
    cases ch with
    | order hs =>
      simp only [exec] at h
      split at h
      next =>
        cases h
        cases w with
        | tokenHash _ => exact ⟨fun _ => rfl, rfl⟩
        | userId _ => exact ⟨fun _ => rfl, rfl⟩
      next => cases h
    | refused e => exact absurd rfl (hne e)
    | done | text | count | lost => cases h
  | revokeRow k =>
    right
    cases ch with
    | done =>
      simp only [exec] at h
      split at h
      next =>
        cases h
        exact ⟨fun _ => rfl, rfl⟩
      next =>
        obtain ⟨T, hT, heq⟩ := Option.map_eq_some_iff.mp h
        cases heq
        exact ⟨Table.write_get? hT, rfl⟩
    | refused e => exact absurd rfl (hne e)
    | text | count | order | lost => cases h
  | insert token =>
    right
    cases ch with
    | done =>
      simp only [exec] at h
      split at h
      next =>
        cases h
        exact ⟨fun _ => rfl, rfl⟩
      next =>
        obtain ⟨T, hT, heq⟩ := Option.map_eq_some_iff.mp h
        cases heq
        exact ⟨Table.write_get? hT, rfl⟩
    | refused e => exact absurd rfl (hne e)
    | text | count | order | lost => cases h
  | now | tokenUrlsafe | incrWindow | runInThreadpool | selectUserByEmail | selectUser =>
    exact absurd rfl hc

theorem ledger_congr (hrows : ∀ k, s'.tokens.get? k = s.tokens.get? k) :
    s'.ledger svc = s.ledger svc := by
  funext k
  simp only [World.ledger, hrows]

/-- A step of the pool commits a transaction, or leaves the committed rows alone. -/
theorem step_rows {p q : State} {l : Label Thread Choice Event}
    (h : (gateway svc).step p l = some q) :
    (∃ i ch, l = .act i ch ∧ (∃ k, p.prog i = some (.call .commit k)) ∧ (∀ e, ch ≠ .refused e) ∧
      q.state = p.state.commit i) ∨
    ((∀ k, q.state.tokens.get? k = p.state.tokens.get? k) ∧ q.state.swept = p.state.swept) := by
  obtain ⟨i, ch, c, k, r, t, rfl, hprog, hexec, rfl⟩ | ⟨i, r, n, rfl, -, -, rfl⟩ |
    ⟨i, rfl, rfl⟩ | ⟨e, t, rfl, hevent, rfl⟩ := Machine.step_cases h
  · rcases exec_rows hexec with ⟨rfl, hne, heq⟩ | hsame
    · exact Or.inl ⟨i, ch, rfl, ⟨k, hprog⟩, hne, heq⟩
    · exact Or.inr hsame
  · exact Or.inr ⟨fun _ => rfl, rfl⟩
  · exact Or.inr ⟨fun _ => rfl, rfl⟩
  · cases hevent
    cases e with
    | advance d => exact Or.inr ⟨fun _ => rfl, rfl⟩
    | users us => exact Or.inr ⟨fun _ => rfl, rfl⟩

theorem step_ledger {p q : State} {l : Label Thread Choice Event} (hp : Sound svc p.state)
    (h : (gateway svc).step p l = some q) :
    Ledger.Step (p.state.ledger svc) (q.state.ledger svc) := by
  rcases step_rows h with ⟨i, ch, -, -, -, heq⟩ | ⟨hrows, -⟩
  · rw [heq]
    exact (hp.drafted i).ledger_commit
  · rw [ledger_congr hrows]
    exact Ledger.Step.refl _

theorem reach_ledger {p q : State} (hp : (gateway svc).Reach g ((gateway svc).start {}) p)
    (hq : (gateway svc).Reach g p q) :
    Ledger.Steps (p.state.ledger svc) (q.state.ledger svc) := by
  induction hq with
  | here => exact .refl
  | step hreach _ hstep ih => exact ih.tail (step_ledger (reach_sound (hp.trans hreach)).1 hstep)

/-! ## The family -/

/-- What an update that was not overtaken commits is the death of the family. -/
theorem Sound.doomed_commit (hs : Sound svc s) (hs' : Sound svc (s.commit i)) {u : UserId}
    {seen : List Hash} (hsweep : s.sweep i = some (u, seen))
    (hnot : ¬Overtaken svc s i u seen) :
    ((s.commit i).ledger svc).Doomed fun k => k ∈ s.existing i u := by
  have hmem : ⟨i, u, s.existing i u, seen⟩ ∈ (s.commit i).swept :=
    World.mem_swept_commit.mpr (Or.inr ⟨u, seen, hsweep, rfl⟩)
  -- Along the exchanges, the family stays inside the snapshot.
  have hfamily : ∀ k, ((s.commit i).ledger svc).Descends (fun k => k ∈ s.existing i u) k →
      (s.ledger svc).Descends (fun k => k ∈ s.existing i u) k ∧ k ∈ seen := by
    intro k hk
    induction hk with
    | root hk => exact ⟨.root hk, hs.covers i u seen hsweep hk⟩
    | @exchanged c p e hc hp _ ih =>
      obtain ⟨row, hrow, rfl⟩ := Option.map_eq_some_iff.mp hc
      cases hold : s.tokens.get? c with
      | none =>
        obtain ⟨-, hnone, -⟩ := (hs.drafted i).adds c row (mem_pending_of_commit hold hrow) hold
        rw [hsweep] at hnone
        cases hnone
      | some r =>
        obtain ⟨r', hr', -, hissuer, -⟩ := (hs.drafted i).persists_commit.columns hold
        rw [hrow] at hr'
        cases hr'
        have hsucc : r.succeeds svc p := by
          rw [Row.succeeds, ← hissuer]
          exact hp
        refine ⟨.exchanged (e := r.token svc) (by simp [World.ledger, hold]) hsucc ih.1, ?_⟩
        by_contra hout
        exact hnot ⟨p, ih.2, ih.1, c, r, hold, hsucc, hout⟩
  intro k hk
  obtain ⟨row, hrow, hrevoked⟩ := (hs'.swept _ hmem).2 k (hfamily k hk).2
  refine ⟨row.token svc, by simp [World.ledger, hrow], ?_⟩
  simp [Row.token, hrevoked]

theorem reach_doomed {q : State}
    (hq : (gateway svc).Reach (undisturbed svc) ((gateway svc).start {}) q) :
    ∀ w ∈ q.state.swept, (q.state.ledger svc).Doomed w.roots := by
  induction hq with
  | here =>
    intro w hw
    cases hw
  | @step p q l hreach hg hstep ih =>
    intro w hw
    have hp := (reach_sound hreach).1
    have hold : w ∈ p.state.swept → (q.state.ledger svc).Doomed w.roots :=
      fun hw => (ih w hw).step (step_ledger hp hstep)
    rcases step_rows hstep with ⟨i, ch, rfl, ⟨k, hprog⟩, hne, heq⟩ | ⟨-, hswept⟩
    · simp only [Guard.allows, hprog] at hg
      have hcase : w ∈ p.state.swept ∨ ∃ u seen, p.state.sweep i = some (u, seen) ∧
          w = ⟨i, u, p.state.existing i u, seen⟩ := World.mem_swept_commit.mp (heq ▸ hw)
      rcases hcase with hw | ⟨u, seen, hsweep, rfl⟩
      · exact hold hw
      · have hq' := (reach_sound (hreach.step (by simpa only [Guard.allows, hprog]) hstep)).1
        rw [heq] at hq' ⊢
        exact hp.doomed_commit hq' hsweep (hg rfl hne u seen hsweep)
    · exact hold (hswept ▸ hw)

/-- A detected reuse kills the family for good, in every run in which no update over
the rows of a user takes effect after a token of the family in its snapshot has been
exchanged. -/
theorem reuse_kills_family (svc : Service) : FamilyDead svc (undisturbed svc) := by
  intro q hq
  have hended := (reach_sound hq).2
  refine ⟨fun i hi => (hended i (.error reused) hi).swept rfl, fun w hw q' hq' h hdesc => ?_⟩
  have hdoomed := reach_doomed hq w hw
  have hsteps := reach_ledger hq hq'
  have hbefore : ∀ k row, q'.state.tokens.get? k = some row → row.succeeds svc h →
      ∃ row', q.state.tokens.get? k = some row' ∧ row'.succeeds svc h := by
    intro k row hk hsucc
    obtain ⟨d, hd, hparent⟩ := hdoomed.exchanged_steps hsteps (c := k) (e := row.token svc)
      (by simp [World.ledger, hk]) hsucc hdesc
    obtain ⟨row', hrow', rfl⟩ := Option.map_eq_some_iff.mp hd
    exact ⟨row', hrow', hparent⟩
  refine ⟨hbefore, fun i raw t hi hraw hret => ?_⟩
  obtain ⟨row, hrow, rfl⟩ :=
    ((reach_sound (hq.trans hq')).2 i (.ok (.tokens t)) hret).issued t rfl
  refine hbefore _ row hrow ?_
  simp only [Row.succeeds, presented, hi, hraw]

/-! ## Runs with and without a disturbance -/

section Mock

/-- The user logs in, and the token of the login is exchanged. -/
def firstExchange : List (Label Thread Choice Event) :=
  [.env (.users [mockUser])] ++ loginWith 0 tokenA ++ exchangeFor 1 tokenB ++ conclude 1

/-- A reuse of the first token up to the snapshot of the update, which has both. -/
def reuseScan : List (Label Thread Choice Event) :=
  acts 3 [.done, .done, .order [hashToken mockService tokenA, hashToken mockService tokenB]]

def ended (q : State) (i : Thread) : Option Fault :=
  match q.prog i with
  | some (.raise f) => some f
  | _ => none

/-- Whoever moves with an open update over the rows of a user has all rows in its
snapshot. -/
def seesAll (p : State) : Label Thread Choice Event → Bool
  | .act i _ =>
    match p.state.sweep i with
    | some (_, seen) => p.state.tokens.rows.items.all fun e => seen.contains e.1
    | none => true
  | _ => true

theorem undisturbed_of_seesAll (p : State) (l : Label Thread Choice Event)
    (h : seesAll p l = true) : (undisturbed svc).allows p l := by
  cases l with
  | act i ch =>
    simp only [Guard.allows]
    split
    next c k hprog =>
      intro _ _ u seen hsweep
      rintro ⟨-, -, -, key, row, hrow, -, hout⟩
      simp only [seesAll, hsweep, List.all_eq_true] at h
      exact hout (by simpa using h (key, row) (Dict.mem_items_iff.mpr hrow))
    next => trivial
  | loop i => trivial
  | crash i => trivial
  | env e => trivial

/-- After the reuse of the first token the second cannot be exchanged any more. -/
theorem reuse_kills_family_mock :
    ∃ q, (gateway mockService).Reach (undisturbed mockService) ((gateway mockService).start {}) q ∧
      (∃ w ∈ q.state.swept, w.thread = 3 ∧ w.roots (hashToken mockService tokenB)) ∧
      ∀ q', (gateway mockService).Reach (undisturbed mockService) q q' →
        ∀ t, q'.prog 2 ≠ some (.ret (.tokens t)) := by
  have hrun : ((gateway mockService).runIn seesAll ((gateway mockService).start {})
      (firstExchange ++ reuseScan ++ acts 3 [.done, .done, .done, .done])).map (fun q =>
        (q.state.swept, q.state.tokens.rows.items.any fun e =>
          decide (presented mockService e.2.issuer = some (hashToken mockService tokenB)))) =
      some ([⟨3, "5f0c", [hashToken mockService tokenA, hashToken mockService tokenB],
        [hashToken mockService tokenA, hashToken mockService tokenB]⟩], false) := by
    decide +kernel
  obtain ⟨q, hq, hobs⟩ := Option.map_eq_some_iff.mp hrun
  obtain ⟨hswept, hnone⟩ := Prod.mk.inj hobs
  have hreach := Machine.reach_of_runIn (g := undisturbed mockService) undisturbed_of_seesAll hq
  have hmem := hswept ▸ List.mem_singleton_self _
  have hroot : (⟨3, "5f0c", [hashToken mockService tokenA, hashToken mockService tokenB],
      [hashToken mockService tokenA, hashToken mockService tokenB]⟩ : Sweep).roots
        (hashToken mockService tokenB) := List.mem_cons_of_mem _ (List.mem_singleton_self _)
  refine ⟨q, hreach, ⟨_, hmem, rfl, hroot⟩, fun q' hq' t hret => ?_⟩
  obtain ⟨row, hrow, hsucc⟩ := ((reuse_kills_family mockService q hreach).2 _ hmem q' hq'
    (hashToken mockService tokenB) (.root hroot)).2 2 tokenB t rfl rfl hret
  have hany : (q.state.tokens.rows.items.any fun e =>
      decide (presented mockService e.2.issuer = some (hashToken mockService tokenB))) = true :=
    List.any_eq_true.mpr ⟨_, Dict.mem_items_iff.mpr hrow, decide_eq_true hsucc⟩
  rw [hnone] at hany
  cases hany

/-- The second token is exchanged while the update that is to revoke both tokens of
the user waits for its row.  The third token is not in the snapshot, and it is
exchanged after the reuse was reported. -/
theorem overtaken_family_survives : ¬∀ svc, FamilyDead svc Guard.any := by
  intro hdead
  have hrun : ((gateway mockService).run ((gateway mockService).start {})
      (firstExchange ++ exchangeFor 2 tokenC ++ reuseScan ++ acts 3 [.done] ++ conclude 2 ++
        acts 3 [.done, .done, .done])).bind (fun q =>
          ((gateway mockService).run q (exchangeFor 4 tokenD ++ conclude 4)).map fun q' =>
            decide (q.state.swept.map Sweep.existing =
              [[hashToken mockService tokenA, hashToken mockService tokenB]]) &&
            decide (ended q 3 = some reused) &&
            decide (q.state.tokens.get? (hashToken mockService tokenD) = none) &&
            decide ((q'.state.tokens.get? (hashToken mockService tokenC)).map Row.issuer =
              some 2) &&
            decide (answered q' 4 = some tokenD)) = some true := by
    decide +kernel
  obtain ⟨q, hq, hrest⟩ := Option.bind_eq_some_iff.mp hrun
  obtain ⟨q', hq', hobs⟩ := Option.map_eq_some_iff.mp hrest
  simp only [Bool.and_eq_true, decide_eq_true_eq] at hobs
  obtain ⟨⟨⟨⟨hswept, -⟩, hnone⟩, hissuer⟩, hanswer⟩ := hobs
  obtain ⟨w, hw, hexisting⟩ : ∃ w ∈ q.state.swept, w.existing =
      [hashToken mockService tokenA, hashToken mockService tokenB] := by
    have hmem := hswept ▸ List.mem_singleton_self _
    obtain ⟨w, hw, heq⟩ := List.mem_map.mp hmem
    exact ⟨w, hw, heq⟩
  have hroot : w.roots (hashToken mockService tokenB) := by
    show _ ∈ w.existing
    rw [hexisting]
    exact List.mem_cons_of_mem _ (List.mem_singleton_self _)
  -- The third token was given in exchange for the second.
  obtain ⟨row, hrow, hrow2⟩ := Option.map_eq_some_iff.mp hissuer
  have hdesc : (q'.state.ledger mockService).Descends w.roots (hashToken mockService tokenC) := by
    refine .exchanged (e := row.token mockService) (p := hashToken mockService tokenB) ?_ ?_
      (.root hroot)
    · simp [World.ledger, hrow]
    · show presented mockService row.issuer = _
      rw [hrow2]
      rfl
  obtain ⟨t, hret, htoken⟩ := prog_of_answered hanswer
  obtain ⟨row', hrow', -⟩ := ((hdead mockService q (Machine.reach_of_run hq)).2 w hw q'
    (Machine.reach_of_run hq') _ hdesc).2 4 tokenC t rfl rfl hret
  rw [htoken, hnone] at hrow'
  cases hrow'

end Mock

end Auth
end AdaptiveGateway
