/-
How far the average moves between two changes in opposite directions.

A tier is entered from below at its threshold, and left for a tier below it only under its
threshold less the hysteresis.  The lower threshold is rounded to a double, but no average
lies between it and the exact difference.
-/
import AdaptiveGateway.Detector.Dwell
import AdaptiveGateway.Detector.StateText

namespace AdaptiveGateway

namespace Detector

open Numeric Control

/-- The up-threshold of a tier. -/
def Thresholds.level (t : Thresholds) : Tier → Binary64
  | .good => .zero
  | .degraded => t.goodMs
  | .poor => t.degradedMs

section Candidate

variable {t : Thresholds} (ht : t.Valid) {v : Binary64} {c d : Tier}
include ht

theorem level_finite (d : Tier) : (t.level d).isFinite = true := by
  cases d with
  | good => rfl
  | degraded => exact ht.finite.1
  | poor => exact ht.finite.2.1

/-- A candidate for the worse has the value at its threshold. -/
theorem level_le_of_raised (hcd : c < d) (hd : d ≤ candidateTier v c t) :
    (t.level d).le v = true := by
  cases d with
  | good => exact absurd hcd (not_lt_of_ge (by cases c <;> decide))
  | degraded =>
    rcases (degraded_le_candidateTier ht).mp hd with h | ⟨hc, -⟩
    · exact h
    · exact absurd hcd (not_lt_of_ge hc)
  | poor =>
    rcases (poor_le_candidateTier ht).mp hd with h | ⟨rfl, -⟩
    · exact h
    · exact absurd hcd (lt_irrefl _)

/-- A candidate for the better has the value under the down-threshold of every tier that is
worse than itself. -/
theorem not_level_le_of_lowered (hc : candidateTier v c t < c) (hd : candidateTier v c t < d) :
    (t.level d - t.hysteresisMs).le v = false := by
  have hgood : candidateTier v c t < .degraded → (t.goodMs - t.hysteresisMs).le v = false := by
    intro h
    have hnot := mt (degraded_le_candidateTier ht).mpr (not_le_of_gt h)
    have hworse : Tier.degraded ≤ c := by
      cases c with
      | good => exact absurd hc (not_lt_of_ge (by cases candidateTier v .good t <;> decide))
      | degraded => exact le_rfl
      | poor => decide
    rw [not_or, not_and] at hnot
    exact Binary64.not_le_of_lt (by simpa using hnot.2 hworse)
  cases d with
  | good => exact absurd hd (not_lt_of_ge (by cases candidateTier v c t <;> decide))
  | degraded => exact hgood hd
  | poor =>
    by_cases hpoor : c = .poor
    · have hnot := mt (poor_le_candidateTier ht).mpr (not_le_of_gt hd)
      rw [not_or, not_and] at hnot
      show (t.degradedMs - t.hysteresisMs).le v = false
      simpa using hnot.2 hpoor
    · -- the tier is DEGRADED, and the candidate GOOD
      have hlow : candidateTier v c t < .degraded := lt_of_lt_of_le hc (by
        cases c with
        | poor => exact absurd rfl hpoor
        | _ => decide)
      refine Bool.eq_false_iff.mpr fun hle => ?_
      have h := Binary64.le_of_le_of_le (goodDown_le_degDown ht) hle
      rw [hgood hlow] at h
      cases h

/-- A value that leads up to a tier and one that leads down from it, or from one that is
worse still, have the band between them. -/
theorem hysteresis_lt_sub {w : Binary64} {c' : Tier} (hv : v.isFinite = true)
    (hw : w.isFinite = true) (hraised : c < d) (hd : d ≤ candidateTier v c t)
    (hlowered : candidateTier w c' t < c') (hd' : candidateTier w c' t < d) :
    t.hysteresisMs.val < v.val - w.val := by
  have hup := (Binary64.le_iff_val (level_finite ht d) hv).mp (level_le_of_raised ht hraised hd)
  have hdown := Binary64.val_lt_sub hw (level_finite ht d) ht.finite.2.2.1
    (not_level_le_of_lowered ht hlowered hd')
  linarith

end Candidate

/-! ## Runs -/

section Run

variable {t : Thresholds} {xs : List Binary64}

/-- A change of the tier is to the candidate for the new average. -/
theorem exists_candidate_of_ne (ht : t.Valid) (hxs : ∀ x ∈ xs, Usable x) {n : Nat}
    (hn : n < xs.length) (hne : (after t {} xs (n + 1)).tier ≠ (after t {} xs n).tier) :
    ∃ v, (after t {} xs (n + 1)).ewma = some v ∧ v.isFinite = true ∧
      candidateTier v (after t {} xs n).tier t = (after t {} xs (n + 1)).tier := by
  have hstorable := storable_after ht storable_fresh xs (n + 1)
  have hewma : (after t {} xs (n + 1)).ewma = _ := after_succ_ewma hxs hn
  refine ⟨_, hewma, (hstorable _ hewma).1, ?_⟩
  have hdwell : (after t {} xs (n + 1)).dwell = _ := after_succ_dwell hxs hn
  rw [proposals_eq t {} hn, proposal] at hdwell
  have htier : (after t {} xs (n + 1)).tier = (after t {} xs (n + 1)).dwell.current := rfl
  rcases Debounce.step_current (after t {} xs n).dwell t.transitionSamples
    (candidateTier (smooth (after t {} xs n) xs[n] t) (after t {} xs n).tier t) with h | h
  · rw [htier, hdwell, h] at hne
    exact absurd rfl hne
  · rw [htier, hdwell, h]

/-- Without a change in between, the tier is the same. -/
theorem tier_eq_of_still {m : Nat} : ∀ n, m < n →
    (∀ k, m < k → k < n → (after t {} xs (k + 1)).tier = (after t {} xs k).tier) →
    (after t {} xs n).tier = (after t {} xs (m + 1)).tier := by
  intro n hmn
  induction n, hmn using Nat.le_induction with
  | base => exact fun _ => rfl
  | succ n hmn ih =>
    intro hstill
    rw [hstill n hmn (Nat.lt_succ_self n)]
    exact ih fun k hk hkn => hstill k hk (Nat.lt_succ_of_lt hkn)

/-- Two changes of the tier in opposite directions, with none between them, have averages that
differ by more than the hysteresis. -/
theorem reversal_exceeds_band (t : Thresholds) (ht : t.Valid) (xs : List Binary64)
    (hxs : ∀ x ∈ xs, Usable x) (m n : Nat) (hmn : m < n) (hn : n < xs.length)
    (hstill : ∀ k, m < k → k < n → (after t {} xs (k + 1)).tier = (after t {} xs k).tier)
    (hopposite : (after t {} xs m).tier < (after t {} xs (m + 1)).tier ∧
        (after t {} xs (n + 1)).tier < (after t {} xs n).tier ∨
      (after t {} xs (m + 1)).tier < (after t {} xs m).tier ∧
        (after t {} xs n).tier < (after t {} xs (n + 1)).tier) :
    ∃ v w, (after t {} xs (m + 1)).ewma = some v ∧ (after t {} xs (n + 1)).ewma = some w ∧
      t.hysteresisMs.val < |v.val - w.val| := by
  have hsame := tier_eq_of_still n hmn hstill
  rcases hopposite with ⟨hup, hdown⟩ | ⟨hdown, hup⟩
  · obtain ⟨v, hv, hvfin, hcandidate⟩ := exists_candidate_of_ne ht hxs (hmn.trans hn) hup.ne'
    obtain ⟨w, hw, hwfin, hcandidate'⟩ := exists_candidate_of_ne ht hxs hn hdown.ne
    rw [hsame] at hcandidate' hdown
    have h := hysteresis_lt_sub ht (d := (after t {} xs (m + 1)).tier) hvfin hwfin hup
      hcandidate.ge (by rwa [hcandidate']) (by rwa [hcandidate'])
    exact ⟨v, w, hv, hw, h.trans_le (le_abs_self _)⟩
  · obtain ⟨v, hv, hvfin, hcandidate⟩ := exists_candidate_of_ne ht hxs (hmn.trans hn) hdown.ne
    obtain ⟨w, hw, hwfin, hcandidate'⟩ := exists_candidate_of_ne ht hxs hn hup.ne'
    rw [hsame] at hcandidate' hup
    have h := hysteresis_lt_sub ht (d := (after t {} xs (n + 1)).tier) hwfin hvfin hup
      hcandidate'.ge (by rwa [hcandidate]) (by rwa [hcandidate])
    refine ⟨v, w, hv, hw, h.trans_le ?_⟩
    rw [abs_sub_comm]
    exact le_abs_self _

end Run

/-- Three samples in the middle tier and three in the best. -/
theorem reversal_exceeds_band_crisp : ∃ v w,
    (after crisp {} [ms 155, ms 155, ms 155, ms 100, ms 100, ms 100] 3).ewma = some v ∧
      (after crisp {} [ms 155, ms 155, ms 155, ms 100, ms 100, ms 100] 6).ewma = some w ∧
      crisp.hysteresisMs.val < |v.val - w.val| :=
  reversal_exceeds_band crisp crisp_valid _ (by decide +kernel) 2 5 (by decide) (by decide)
    (fun k hk hk' => by
      obtain rfl | rfl : k = 3 ∨ k = 4 := by omega
      all_goals decide +kernel)
    (by decide +kernel)

end Detector

end AdaptiveGateway
