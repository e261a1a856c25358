/-
When the tier of a client changes, and how two clients compare.

The tier changes exactly on `transition_samples` agreeing candidates.  Worse
samples lead to a worse tier as long as no count is lost to a change of target:
the count starts again whenever the candidate moves from one worse tier to
another, so a link that gets worse too fast can stay behind one that is merely bad.
-/
import AdaptiveGateway.Detector.RttState

namespace AdaptiveGateway

namespace Detector

open Numeric Control
open Binary64 (zero one)

/-- The candidate that sample `i` puts forward. -/
def proposals (t : Thresholds) (st : RttState) (xs : List Binary64) (i : Nat) : Tier :=
  proposal (after t st xs i) (xs.getD i zero) t

theorem proposals_eq (t : Thresholds) (st : RttState) {xs : List Binary64} {i : Nat}
    (h : i < xs.length) : proposals t st xs i = proposal (after t st xs i) xs[i] t := by
  rw [proposals, List.getD, List.getElem?_eq_getElem h]
  rfl

section Run

variable {t : Thresholds} {st : RttState} {xs : List Binary64}

theorem after_succ_dwell (hxs : ∀ x ∈ xs, Usable x) {i : Nat} (h : i < xs.length) :
    (after t st xs (i + 1)).dwell =
      (after t st xs i).dwell.step t.transitionSamples (proposals t st xs i) := by
  rw [after_succ t st h, proposals_eq t st h]
  exact advance_dwell (hxs _ (List.getElem_mem h))

theorem after_succ_ewma (hxs : ∀ x ∈ xs, Usable x) {i : Nat} (h : i < xs.length) :
    (after t st xs (i + 1)).ewma = some (smooth (after t st xs i) xs[i] t) := by
  rw [after_succ t st h]
  exact advance_ewma (hxs _ (List.getElem_mem h))

theorem dwell_run (hxs : ∀ x ∈ xs, Usable x) :
    Debounce.Run t.transitionSamples (fun i => (after t {} xs i).dwell) (proposals t {} xs)
      xs.length where
  start := rfl
  next _ hi := after_succ_dwell hxs hi

end Run

/-! ## Commits -/

/-- The samples up to the `n`-th agree on `c` against the tier held before it: the
tier stood still over the last `transition_samples` of them, and the average after
each of them has the candidate `c`. -/
structure Agreeing (t : Thresholds) (xs : List Binary64) (n : Nat) (c : Tier) : Prop where
  ne : c ≠ (after t {} xs (n - 1)).tier
  enough : t.transitionSamples ≤ n
  still : ∀ i : Nat, (n : Int) - t.transitionSamples ≤ i → i < n →
    (after t {} xs i).tier = (after t {} xs (n - 1)).tier
  agree : ∀ i : Nat, (n : Int) - t.transitionSamples < i → i ≤ n →
    ∃ e, (after t {} xs i).ewma = some e ∧ candidateTier e (after t {} xs (n - 1)).tier t = c

theorem agreeing_iff {t : Thresholds} {xs : List Binary64} (hxs : ∀ x ∈ xs, Usable x) {n : Nat}
    (hn : n < xs.length) (c : Tier) :
    Agreeing t xs (n + 1) c ↔ Debounce.Agreed t.transitionSamples
      (fun i => (after t {} xs i).dwell) (proposals t {} xs) n c := by
  -- The candidate after sample `i + 1` is the proposal at `i`, where the tier stood still.
  have hprop : ∀ i, i ≤ n → (after t {} xs i).tier = (after t {} xs n).tier →
      ((∃ e, (after t {} xs (i + 1)).ewma = some e ∧
        candidateTier e (after t {} xs n).tier t = c) ↔ proposals t {} xs i = c) := by
    intro i hi htier
    have hlen : i < xs.length := by omega
    rw [after_succ_ewma hxs hlen, proposals_eq t {} hlen, proposal, htier]
    constructor
    · intro ⟨e, he, hc⟩
      rw [Option.some.inj he]
      exact hc
    · intro hc
      exact ⟨_, rfl, hc⟩
  constructor
  · intro h
    have hstill : ∀ i : Nat, (n : Int) + 1 - t.transitionSamples ≤ i → i ≤ n →
        (after t {} xs i).tier = (after t {} xs n).tier := by
      intro i hi hin
      exact h.still i (by push_cast; omega) (by omega)
    refine ⟨h.ne, by have := h.enough; push_cast at this; omega, hstill, ?_⟩
    intro i hi hin
    exact (hprop i hin (hstill i hi hin)).mp (h.agree (i + 1) (by push_cast; omega) (by omega))
  · intro h
    refine ⟨h.ne, by have := h.le; push_cast; omega, ?_, ?_⟩
    · intro i hi hin
      exact h.still i (by push_cast at hi; omega) (by omega)
    · intro i hi hin
      obtain ⟨i, rfl⟩ : ∃ j, i = j + 1 := ⟨i - 1, by have := h.le; push_cast at hi; omega⟩
      push_cast at hi
      exact (hprop i (by omega) (h.still i (by omega) (by omega))).mpr
        (h.agree i (by omega) (by omega))

/-- The tier changes with the `n`-th sample exactly when the last
`transition_samples` samples agree on another tier, and then to that tier. -/
theorem tier_commits_on_agreement (t : Thresholds) (ht : t.Valid) (xs : List Binary64)
    (hxs : ∀ x ∈ xs, Usable x) (n : Nat) (h₀ : 0 < n) (hn : n ≤ xs.length) :
    ((after t {} xs n).tier ≠ (after t {} xs (n - 1)).tier ↔ ∃ c, Agreeing t xs n c) ∧
      ∀ c, Agreeing t xs n c → (after t {} xs n).tier = c := by
  obtain ⟨n, rfl⟩ : ∃ m, n = m + 1 := ⟨n - 1, by omega⟩
  have hrun := dwell_run (t := t) hxs
  constructor
  · simp only [agreeing_iff hxs hn]
    exact hrun.changes_iff ht.samples hn
  · intro c hc
    exact hrun.current_of_agreed ht.samples hn ((agreeing_iff hxs hn c).mp hc)

theorem tier_commits_on_agreement_crisp :
    ∃ c, Agreeing crisp [ms 100, ms 155, ms 155, ms 155] 4 c :=
  (tier_commits_on_agreement crisp crisp_valid _ (by decide +kernel) 4 (by decide)
    (by decide)).1.mp (by decide +kernel)

/-! ## Two runs -/

section Candidate

variable {t : Thresholds} {v w : Binary64} {c d : Tier}

theorem Tier.le_of_levels (h₁ : .degraded ≤ c → .degraded ≤ d) (h₂ : .poor ≤ c → .poor ≤ d) :
    c ≤ d := by
  cases c <;> cases d <;> first | decide | exact absurd (h₁ (by decide)) (by decide) |
    exact absurd (h₂ (by decide)) (by decide)

theorem goodDown_le_goodMs (ht : t.Valid) : (t.goodMs - t.hysteresisMs).le t.goodMs = true :=
  Binary64.sub_le ht.finite.1 ht.finite.2.2.1 ht.hysteresis.1

theorem goodMs_le_degradedMs (ht : t.Valid) : t.goodMs.le t.degradedMs = true := by
  have h := ht.increasing.2
  rw [Binary64.lt, Bool.and_eq_true] at h
  exact h.1

theorem degDown_le_degradedMs (ht : t.Valid) :
    (t.degradedMs - t.hysteresisMs).le t.degradedMs = true :=
  Binary64.sub_le ht.finite.2.1 ht.finite.2.2.1 ht.hysteresis.1

theorem goodDown_le_degDown (ht : t.Valid) :
    (t.goodMs - t.hysteresisMs).le (t.degradedMs - t.hysteresisMs) = true :=
  Binary64.sub_mono ht.finite.1 ht.finite.2.1 ht.finite.2.2.1 (goodMs_le_degradedMs ht)

theorem poor_le_candidateTier (ht : t.Valid) :
    .poor ≤ candidateTier v c t ↔
      t.degradedMs.le v = true ∨ (c = .poor ∧ (t.degradedMs - t.hysteresisMs).le v = true) := by
  have hAC : t.degradedMs.le v = true → (t.degradedMs - t.hysteresisMs).le v = true :=
    Binary64.le_of_le_of_le (degDown_le_degradedMs ht)
  rw [candidateTier]
  cases hA : t.degradedMs.le v <;> cases hB : t.goodMs.le v <;>
    cases hC : (t.degradedMs - t.hysteresisMs).le v <;>
    cases hD : v.lt (t.goodMs - t.hysteresisMs) <;> cases c <;> simp_all <;> decide

theorem degraded_le_candidateTier (ht : t.Valid) :
    .degraded ≤ candidateTier v c t ↔
      t.goodMs.le v = true ∨ (.degraded ≤ c ∧ v.lt (t.goodMs - t.hysteresisMs) = false) := by
  have hAB : t.degradedMs.le v = true → t.goodMs.le v = true :=
    Binary64.le_of_le_of_le (goodMs_le_degradedMs ht)
  have hBD : t.goodMs.le v = true → v.lt (t.goodMs - t.hysteresisMs) = false := fun h =>
    Binary64.not_lt_of_le (Binary64.le_of_le_of_le (goodDown_le_goodMs ht) h)
  have hCD : (t.degradedMs - t.hysteresisMs).le v = true →
      v.lt (t.goodMs - t.hysteresisMs) = false := fun h =>
    Binary64.not_lt_of_le (Binary64.le_of_le_of_le (goodDown_le_degDown ht) h)
  rw [candidateTier]
  cases hA : t.degradedMs.le v <;> cases hB : t.goodMs.le v <;>
    cases hC : (t.degradedMs - t.hysteresisMs).le v <;>
    cases hD : v.lt (t.goodMs - t.hysteresisMs) <;> cases c <;> simp_all <;> decide

/-- A worse value proposes no better tier, and so does a worse current tier. -/
theorem candidateTier_mono (ht : t.Valid) (hvw : v = w ∨ v.le w = true) (hcd : c ≤ d) :
    candidateTier v c t ≤ candidateTier w d t := by
  have hle : ∀ u : Binary64, u.le v = true → u.le w = true := by
    intro u hu
    rcases hvw with rfl | hvw
    · exact hu
    · exact Binary64.le_of_le_of_le hu hvw
  have hlt : ∀ u : Binary64, v.lt u = false → w.lt u = false := by
    intro u hu
    rcases hvw with rfl | hvw
    · exact hu
    · cases hw : w.lt u with
      | false => rfl
      | true =>
        rw [Binary64.lt_of_le_lt hvw hw] at hu
        cases hu
  apply Tier.le_of_levels
  · rw [degraded_le_candidateTier ht, degraded_le_candidateTier ht]
    intro h
    rcases h with h | ⟨hc, h⟩
    · exact .inl (hle _ h)
    · exact .inr ⟨le_trans hc hcd, hlt _ h⟩
  · rw [poor_le_candidateTier ht, poor_le_candidateTier ht]
    intro h
    rcases h with h | ⟨rfl, h⟩
    · exact .inl (hle _ h)
    · refine .inr ⟨?_, hle _ h⟩
      cases d <;> first | rfl | exact absurd hcd (by decide)

end Candidate

/-- The averages of two runs: in order, or the same value outside the numbers that
samples can move. -/
def AverageLe (o o' : Option Binary64) : Prop :=
  o = o' ∨ ∃ e e', o = some e ∧ o' = some e' ∧ e.isFinite = true ∧ e'.isFinite = true ∧
    e.le e' = true

/-- Of two states the first is no worse: neither its tier, nor its count towards
another tier, nor its average. -/
structure NoWorse (s s' : RttState) : Prop where
  dwell : s.dwell.Below s'.dwell
  ewma : AverageLe s.ewma s'.ewma

section Step

variable {t : Thresholds} {s s' : RttState} {x y : Binary64}

theorem smooth_finite_mono (ht : t.Valid) {e e' : Binary64} (hs : s.ewma = some e)
    (hs' : s'.ewma = some e') (he : e.isFinite = true) (he' : e'.isFinite = true)
    (hee : e.le e' = true) (hx : Usable x) (hy : Usable y) (hxy : x.le y = true) :
    AverageLe (some (smooth s x t)) (some (smooth s' y t)) := by
  rw [smooth, smooth, hs, hs']
  have h := Binary64.weightedMean_mono ht.finite.2.2.2 ht.smoothing.1 ht.smoothing.2 hx.1 hx.nonneg
    hy.1 hxy he he' hee
  exact .inr ⟨_, _, rfl, rfl, h⟩

theorem smooth_mono (ht : t.Valid) (h : AverageLe s.ewma s'.ewma) (hx : Usable x) (hy : Usable y)
    (hxy : x.le y = true) : AverageLe (some (smooth s x t)) (some (smooth s' y t)) := by
  rcases h with h | ⟨e, e', hs, hs', he, he', hee⟩
  · cases hs : s.ewma with
    | none =>
      rw [smooth, smooth, ← h, hs]
      exact .inr ⟨x, y, rfl, rfl, hx.1, hy.1, hxy⟩
    | some e =>
      cases he : e.isFinite with
      | true =>
        exact smooth_finite_mono ht hs (h ▸ hs) he he (Binary64.le_refl_of_isFinite he) hx hy hxy
      | false =>
        left
        rw [smooth, smooth, ← h, hs]
        show some (t.alpha * x + (one - t.alpha) * e) = some (t.alpha * y + (one - t.alpha) * e)
        rw [Binary64.weightedMean_not_finite ht.finite.2.2.2 ht.smoothing.1 ht.smoothing.2 hx.1
          hx.nonneg he, Binary64.weightedMean_not_finite ht.finite.2.2.2 ht.smoothing.1
          ht.smoothing.2 hy.1 hy.nonneg he]
  · exact smooth_finite_mono ht hs hs' he he' hee hx hy hxy

theorem proposal_mono (ht : t.Valid) (h : NoWorse s s') (hx : Usable x) (hy : Usable y)
    (hxy : x.le y = true) : proposal s x t ≤ proposal s' y t := by
  refine candidateTier_mono ht ?_ h.dwell.current_le
  rcases smooth_mono ht h.ewma hx hy hxy with hs | ⟨e, e', he, he', -, -, hee⟩
  · exact .inl (Option.some.inj hs)
  · rw [Option.some.inj he, Option.some.inj he']
    exact .inr hee

theorem NoWorse.advance (ht : t.Valid) (h : NoWorse s s') (hx : Usable x) (hy : Usable y)
    (hxy : x.le y = true) (hs : ¬s.dwell.Redirected (· < s.tier) (proposal s x t))
    (hs' : ¬s'.dwell.Redirected (s'.tier < ·) (proposal s' y t)) :
    NoWorse (advance s x t) (advance s' y t) where
  dwell := by
    rw [advance_dwell hx, advance_dwell hy]
    exact h.dwell.step (proposal_mono ht h hx hy hxy) hs hs'
  ewma := by
    rw [advance_ewma hx, advance_ewma hy]
    exact smooth_mono ht h.ewma hx hy hxy

end Step

/-- Sample `i` throws away the count of a pending recovery for another recovery. -/
def DropsRecovery (t : Thresholds) (st : RttState) (xs : List Binary64) (i : Nat) : Prop :=
  (after t st xs i).dwell.Redirected (· < (after t st xs i).tier) (proposals t st xs i)

/-- Sample `i` throws away the count of a pending change for the worse for another one. -/
def DropsWorsening (t : Thresholds) (st : RttState) (xs : List Binary64) (i : Nat) : Prop :=
  (after t st xs i).dwell.Redirected ((after t st xs i).tier < ·) (proposals t st xs i)

instance (t : Thresholds) (st : RttState) (xs : List Binary64) (i : Nat) :
    Decidable (DropsRecovery t st xs i) := inferInstanceAs (Decidable (Debounce.Redirected ..))

instance (t : Thresholds) (st : RttState) (xs : List Binary64) (i : Nat) :
    Decidable (DropsWorsening t st xs i) := inferInstanceAs (Decidable (Debounce.Redirected ..))

theorem noWorse_after {t : Thresholds} (ht : t.Valid) {st : RttState} (hst : st.dwell.CountNonneg)
    {xs ys : List Binary64} (hxs : ∀ x ∈ xs, Usable x) (hys : ∀ y ∈ ys, Usable y)
    (hxy : List.Forall₂ (fun x y => x.le y = true) xs ys) :
    ∀ n, n ≤ xs.length →
      (∀ i, i < n → ¬DropsRecovery t st xs i ∧ ¬DropsWorsening t st ys i) →
      NoWorse (after t st xs n) (after t st ys n) := by
  intro n
  induction n with
  | zero =>
    intro _ _
    exact ⟨.refl hst, .inl rfl⟩
  | succ n ih =>
    intro hn hdrop
    have hnx : n < xs.length := hn
    have hny : n < ys.length := hxy.length_eq ▸ hnx
    have h := ih hnx.le fun i hi => hdrop i (by omega)
    obtain ⟨hx', hy'⟩ := hdrop n (by omega)
    rw [DropsRecovery, proposals_eq t st hnx] at hx'
    rw [DropsWorsening, proposals_eq t st hny] at hy'
    rw [after_succ t st hnx, after_succ t st hny]
    exact h.advance ht (hxs _ (List.getElem_mem hnx)) (hys _ (List.getElem_mem hny))
      (hxy.get hnx hny) hx' hy'

/-- Worse samples give no better tier, as long as the worse run drops no count
towards a worse tier and the better run none towards a better one. -/
theorem worse_samples_worse_tier (t : Thresholds) (ht : t.Valid) (st : RttState)
    (hst : ∀ c, st.pendingTier = some c → 0 ≤ st.pendingCount) (xs ys : List Binary64)
    (hxs : ∀ x ∈ xs, Usable x) (hys : ∀ y ∈ ys, Usable y)
    (hxy : List.Forall₂ (fun x y => x.le y = true) xs ys) (n : Nat) (hn : n ≤ xs.length)
    (hdrop : ∀ i, i < n → ¬DropsRecovery t st xs i ∧ ¬DropsWorsening t st ys i) :
    (after t st xs n).tier ≤ (after t st ys n).tier :=
  (noWorse_after ht hst hxs hys hxy n hn hdrop).dwell.current_le

theorem worse_samples_worse_tier_crisp :
    (after crisp {} [ms 200, ms 200, ms 200] 3).tier ≤
      (after crisp {} [ms 600, ms 600, ms 600] 3).tier :=
  worse_samples_worse_tier crisp crisp_valid {} (by decide) _ _ (by decide +kernel)
    (by decide +kernel) (by decide +kernel) 3 (by decide) (by decide +kernel)

/-- Three times 200 ms is DEGRADED.  200 ms and twice 600 ms is still GOOD. -/
theorem worse_samples_better_tier :
    ¬∀ (t : Thresholds) (_ : t.Valid) (st : RttState) (xs ys : List Binary64),
      (∀ x ∈ xs, Usable x) → (∀ y ∈ ys, Usable y) →
      List.Forall₂ (fun x y => x.le y = true) xs ys → ∀ n, n ≤ xs.length →
      (after t st xs n).tier ≤ (after t st ys n).tier := by
  intro h
  have h := h crisp crisp_valid {} [ms 200, ms 200, ms 200] [ms 200, ms 600, ms 600]
    (by decide +kernel) (by decide +kernel) (by decide +kernel) 3 (by decide)
  exact absurd h (by decide +kernel)

end Detector

end AdaptiveGateway
