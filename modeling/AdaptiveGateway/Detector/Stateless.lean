/-
The classifier without smoothing, band or count.

With these knobs a state remembers nothing but its tier, and the tier says which interval
the latest sample lies in: `classify_rtt`, which knows no state, says the same.
-/
import AdaptiveGateway.Detector.Corrupt
import AdaptiveGateway.Detector.Dwell
import AdaptiveGateway.Proxy.Message

namespace AdaptiveGateway

namespace Detector

open Numeric Control Proxy
open Binary64 (zero one)

/-- `classify_rtt`, under the settings that `_thresholds` reads as well. -/
def classifyRtt (t : Thresholds) (rttMs : Binary64) : Except Exc NetworkQuality :=
  if !rttMs.isFinite || rttMs.lt zero then .error .valueError
  else if rttMs.lt t.goodMs then .ok .good
  else if rttMs.lt t.degradedMs then .ok .degraded
  else .ok .poor

/-- `alpha = 1`, `hysteresis_ms = 0` and `transition_samples = 1`. -/
def stateless (goodMs degradedMs : Binary64) : Thresholds := ⟨goodMs, degradedMs, zero, 1, one⟩

theorem stateless_valid {goodMs degradedMs : Binary64} (hgood : goodMs.isFinite = true)
    (hdegraded : degradedMs.isFinite = true)
    (hincreasing : zero.lt goodMs = true ∧ goodMs.lt degradedMs = true) :
    (stateless goodMs degradedMs).Valid where
  finite := ⟨hgood, hdegraded, rfl, rfl⟩
  increasing := hincreasing
  hysteresis := ⟨Binary64.le_refl_of_isFinite rfl, hincreasing.1⟩
  smoothing := by
    have hone : zero.lt one = true ∧ one.le one = true := by decide +kernel
    exact hone
  samples := Int.one_pos

/-! ## One sample -/

section

variable {t : Thresholds} (ht : t.Valid) {v : Binary64}
include ht

theorem degraded_le_of_no_band (hband : t.hysteresisMs = zero) (hv : v.isFinite = true)
    (c : Tier) : .degraded ≤ candidateTier v c t ↔ v.lt t.goodMs = false := by
  have hlt : v.lt t.goodMs = false ↔ t.goodMs.le v = true := by
    rw [← Bool.not_eq_true, Binary64.lt_iff hv ht.finite.1, Bool.not_eq_false]
  rw [degraded_le_candidateTier ht, hband, Binary64.sub_zero ht.finite.1, hlt]
  exact or_iff_left_of_imp And.right

theorem poor_le_of_no_band (hband : t.hysteresisMs = zero) (hv : v.isFinite = true) (c : Tier) :
    .poor ≤ candidateTier v c t ↔ v.lt t.degradedMs = false := by
  have hlt : v.lt t.degradedMs = false ↔ t.degradedMs.le v = true := by
    rw [← Bool.not_eq_true, Binary64.lt_iff hv ht.finite.2.1, Bool.not_eq_false]
  rw [poor_le_candidateTier ht, hband, Binary64.sub_zero ht.finite.2.1, hlt]
  exact or_iff_left_of_imp And.right

/-- Without a band the candidate is what `classify_rtt` makes of the value, whatever the
current tier is. -/
theorem classifyRtt_candidateTier (hband : t.hysteresisMs = zero) (hv : Usable v) (c : Tier) :
    ∃ quality, classifyRtt t v = .ok quality ∧ (candidateTier v c t).value = quality.value := by
  have hdegraded := degraded_le_of_no_band ht hband hv.1 c
  have hpoor := poor_le_of_no_band ht hband hv.1 c
  rw [classifyRtt, hv.1, hv.2]
  show ∃ quality, (if v.lt t.goodMs = true then _ else _) = _ ∧ _
  cases hgood : v.lt t.goodMs with
  | true =>
    refine ⟨.good, rfl, ?_⟩
    cases hc : candidateTier v c t with
    | good => rfl
    | degraded | poor =>
      rw [hc, hgood] at hdegraded
      exact absurd (hdegraded.mp (by decide)) (by decide)
  | false =>
    rw [hgood] at hdegraded
    have hle := hdegraded.mpr rfl
    cases hlt : v.lt t.degradedMs with
    | true =>
      refine ⟨.degraded, rfl, ?_⟩
      cases hc : candidateTier v c t with
      | good => exact absurd (hc ▸ hle) (by decide)
      | degraded => rfl
      | poor =>
        rw [hc, hlt] at hpoor
        exact absurd (hpoor.mp le_rfl) (by decide)
    | false =>
      refine ⟨.poor, rfl, ?_⟩
      have hle' := hpoor.mpr hlt
      cases hc : candidateTier v c t with
      | poor => rfl
      | good | degraded => exact absurd (hc ▸ hle') (by decide)

omit ht in
/-- The average is the sample. -/
theorem smooth_eq_sample {s : RttState} (halpha : t.alpha = one) (hs : s.Storable)
    (hv : v.isFinite = true) : smooth s v t = v := by
  rw [smooth]
  cases hewma : s.ewma with
  | none => rfl
  | some e =>
    show t.alpha * v + (one - t.alpha) * e = v
    rw [halpha]
    exact Binary64.weightedMean_one hv (hs e hewma).1

omit ht in
/-- One sample is enough for a change, and nothing stays pending. -/
theorem advance_at_once {s : RttState} (hsamples : t.transitionSamples = 1)
    (hs : s.WellFormed 1) (hv : Usable v) :
    (advance s v t).dwell = ⟨proposal s v t, none, 0⟩ := by
  have hcount : s.dwell.CountNonneg := fun d hd =>
    (hs.count (by rw [show s.pendingTier = some d from hd]; exact Option.some_ne_none d)).1
  rw [advance_dwell hv, hsamples]
  by_cases hc : proposal s v t = s.dwell.current
  · rw [hc, Debounce.step_agree]
  · exact Debounce.step_commit hc (Debounce.nextCount_pos hcount _)

end

/-! ## Runs -/

section

variable {goodMs degradedMs : Binary64}

theorem advance_stateless {s : RttState} {x : Binary64} (hs : s.WellFormed 1) (hx : Usable x) :
    (advance s x (stateless goodMs degradedMs)).WellFormed 1 ∧
      (advance s x (stateless goodMs degradedMs)).tier =
        candidateTier x s.tier (stateless goodMs degradedMs) := by
  have hsmooth : smooth s x (stateless goodMs degradedMs) = x :=
    smooth_eq_sample rfl hs.ewma hx.1
  have hdwell := advance_at_once (t := stateless goodMs degradedMs) rfl hs hx
  rw [proposal, hsmooth] at hdwell
  refine ⟨⟨fun e he => ?_, fun hpending => ?_⟩, congrArg Debounce.current hdwell⟩
  · rw [advance_ewma hx, hsmooth] at he
    rw [← Option.some.inj he]
    exact ⟨hx.1, hx.nonneg⟩
  · exact absurd (congrArg Debounce.pending hdwell) hpending

theorem foldl_stateless_wellFormed {s : RttState} (hs : s.WellFormed 1) {xs : List Binary64}
    (hxs : ∀ x ∈ xs, Usable x) :
    (xs.foldl (fun s x => advance s x (stateless goodMs degradedMs)) s).WellFormed 1 := by
  induction xs generalizing s with
  | nil => exact hs
  | cons x xs ih =>
    exact ih (advance_stateless hs (hxs x List.mem_cons_self)).1 fun y hy =>
      hxs y (List.mem_cons_of_mem x hy)

end

/-- With no smoothing, no band and no count, the tier after any samples is that of
`classify_rtt` for the last one, from every well-formed state and so from every tier.  Under
every valid setting the candidate follows the value and the current tier. -/
theorem stateless_classifier :
    (∀ goodMs degradedMs : Binary64, goodMs.isFinite = true → degradedMs.isFinite = true →
      zero.lt goodMs = true ∧ goodMs.lt degradedMs = true →
      (stateless goodMs degradedMs).Valid ∧
      ∀ s : RttState, s.WellFormed 1 → ∀ xs : List Binary64, (∀ x ∈ xs, Usable x) →
      ∀ hne : xs ≠ [], ∃ quality,
        classifyRtt (stateless goodMs degradedMs) (xs.getLast hne) = .ok quality ∧
        (xs.foldl (fun s x => advance s x (stateless goodMs degradedMs)) s).tier.value =
          quality.value) ∧
    ∀ t : Thresholds, t.Valid → ∀ (v w : Binary64) (c d : Tier), v = w ∨ v.le w = true → c ≤ d →
      candidateTier v c t ≤ candidateTier w d t := by
  constructor
  · intro goodMs degradedMs hgood hdegraded hincreasing
    have ht := stateless_valid hgood hdegraded hincreasing
    refine ⟨ht, fun s hs xs hxs hne => ?_⟩
    obtain ⟨ys, x, rfl⟩ := (List.eq_nil_or_concat' xs).resolve_left hne
    rw [List.getLast_concat, List.foldl_concat]
    have hx : Usable x := hxs x (by simp)
    have hys : ∀ y ∈ ys, Usable y := fun y hy => hxs y (by simp [hy])
    rw [(advance_stateless (foldl_stateless_wellFormed hs hys) hx).2]
    exact classifyRtt_candidateTier ht rfl hx _
  · intro t ht v w c d hvw hcd
    exact candidateTier_mono ht hvw hcd

theorem stateless_classifier_poor : ∃ quality,
    classifyRtt (stateless (ms 150) (ms 500)) (ms 150) = .ok quality ∧
    ([ms 600, ms 150].foldl (fun s x => advance s x (stateless (ms 150) (ms 500)))
      { tier := .poor }).tier.value = quality.value :=
  (stateless_classifier.1 (ms 150) (ms 500) (by decide +kernel) (by decide +kernel)
    (by decide +kernel)).2 { tier := .poor } ⟨fun _ he => (by cases he), fun h => absurd rfl h⟩
    [ms 600, ms 150] (by decide +kernel) (by decide)

end Detector

end AdaptiveGateway
