/-
The states that samples lead to, and the text that keeps them.

A pending tier has a count that is short of the transition, and a state without one has
none.  The average stays between the smallest and the largest sample up to the errors of its
operations: in doubles it can leave them, even where all samples are equal.  All of these
states are read back from Redis as they were written.
-/
import AdaptiveGateway.Detector.Dwell
import AdaptiveGateway.Detector.Update
import AdaptiveGateway.Numeric.Error
import Mathlib.Data.Finset.Max

namespace AdaptiveGateway

namespace Detector

open Codec Numeric Control
open Binary64 (zero one)

/-- The smallest and the largest of some samples. -/
structure Extremes (xs : List Binary64) (lo hi : Binary64) : Prop where
  mem : lo ∈ xs ∧ hi ∈ xs
  between : ∀ x ∈ xs, lo.val ≤ x.val ∧ x.val ≤ hi.val

/-- What holds of a state that `advance` made of the samples `xs`. -/
structure RttState.Made (t : Thresholds) (xs : List Binary64) (s : RttState) : Prop where
  pending : s.pendingTier = none ↔ s.pendingCount = 0
  target : s.pendingTier ≠ some s.tier
  count : 0 ≤ s.pendingCount ∧ s.pendingCount < t.transitionSamples
  ewma : ∀ e, s.ewma = some e →
    ∃ lo hi, Extremes xs lo hi ∧ Within lo.val hi.val (xs.length - 1) e.val

theorem exists_extremes {xs : List Binary64} (h : xs ≠ []) : ∃ lo hi, Extremes xs lo hi := by
  have hne : xs.toFinset.Nonempty := (List.toFinset_nonempty_iff xs).mpr h
  obtain ⟨lo, hlo, hmin⟩ := xs.toFinset.exists_min_image Binary64.val hne
  obtain ⟨hi, hhi, hmax⟩ := xs.toFinset.exists_max_image Binary64.val hne
  simp only [List.mem_toFinset] at hlo hmin hhi hmax
  exact ⟨lo, hi, ⟨hlo, hhi⟩, fun x hx => ⟨hmin x hx, hmax x hx⟩⟩

/-! ## The dwell count -/

section Run

variable {t : Thresholds} (ht : t.Valid) {xs : List Binary64} (hxs : ∀ x ∈ xs, Usable x) {n : Nat}

include ht hxs

theorem pending_after (hn : n ≤ xs.length) {c : Tier}
    (hc : (after t {} xs n).pendingTier = some c) :
    c ≠ (after t {} xs n).tier ∧ 0 < (after t {} xs n).pendingCount ∧
      (after t {} xs n).pendingCount < t.transitionSamples := by
  obtain ⟨hne, m, hm, hpos, hlt, -⟩ := (dwell_run (t := t) hxs).counts ht.samples n hn c hc
  have hcount : (after t {} xs n).pendingCount = m := hm
  exact ⟨hne, by omega, by omega⟩

omit ht in
theorem pendingCount_after (hn : n ≤ xs.length) (hnone : (after t {} xs n).pendingTier = none) :
    (after t {} xs n).pendingCount = 0 := by
  cases n with
  | zero => rfl
  | succ n =>
    have hdwell : (after t {} xs (n + 1)).dwell = _ := after_succ_dwell hxs hn
    have hcount : (after t {} xs (n + 1)).pendingCount = (after t {} xs (n + 1)).dwell.count := rfl
    have hpending : (after t {} xs (n + 1)).dwell.pending = none := hnone
    rw [hcount, hdwell]
    rw [hdwell] at hpending
    exact Debounce.step_count_eq_zero hpending

/-! ## The average -/

/-- An average of samples in bounds is in the bounds, up to one error for each sample after
the first. -/
theorem within_after {lo hi : ℚ} (hlo : 0 ≤ lo) : ∀ n, n < xs.length →
    (∀ x ∈ xs.take (n + 1), lo ≤ x.val ∧ x.val ≤ hi) → ∀ e,
    (after t {} xs (n + 1)).ewma = some e → Within lo hi n e.val := by
  intro n
  induction n with
  | zero =>
    intro hn hbounds e he
    rw [after_succ_ewma hxs hn] at he
    obtain rfl : xs[0] = e := Option.some.inj he
    have hmem : xs[0] ∈ xs.take 1 := List.mem_take_iff_getElem.mpr ⟨0, by simpa using hn, rfl⟩
    exact within_zero (hbounds _ hmem).1 (hbounds _ hmem).2
  | succ n ih =>
    intro hn hbounds e he
    have hn' : n < xs.length := Nat.lt_of_succ_lt hn
    have hprev : (after t {} xs (n + 1)).ewma = _ := after_succ_ewma hxs hn'
    obtain ⟨hfin, hnonneg⟩ := storable_after ht storable_fresh xs (n + 1) _ hprev
    have hx := hxs _ (List.getElem_mem hn)
    have hmem : xs[n + 1] ∈ xs.take (n + 2) :=
      List.mem_take_iff_getElem.mpr ⟨n + 1, by omega, rfl⟩
    rw [after_succ_ewma hxs hn, smooth, hprev] at he
    obtain rfl := Option.some.inj he
    refine Within.weightedMean (ih hn' (fun x hx => hbounds x ?_) _ hprev) ht.finite.2.2.2
      ht.smoothing.1 ht.smoothing.2 hx.1 hlo (hbounds _ hmem).1 (hbounds _ hmem).2 hfin hnonneg
    exact (List.take_sublist_take_left (Nat.le_succ (n + 1))).subset hx

theorem made_after (hn : n ≤ xs.length) : (after t {} xs n).Made t (xs.take n) where
  pending := by
    refine ⟨pendingCount_after hxs hn, fun hcount => ?_⟩
    cases hc : (after t {} xs n).pendingTier with
    | none => rfl
    | some c =>
      have hpos := (pending_after ht hxs hn hc).2.1
      omega
  target hc := (pending_after ht hxs hn hc).1 rfl
  count := by
    cases hc : (after t {} xs n).pendingTier with
    | none =>
      rw [pendingCount_after hxs hn hc]
      exact ⟨le_rfl, ht.samples⟩
    | some c =>
      obtain ⟨-, hpos, hlt⟩ := pending_after ht hxs hn hc
      exact ⟨hpos.le, hlt⟩
  ewma e he := by
    cases n with
    | zero => cases he
    | succ n =>
      have hne : xs.take (n + 1) ≠ [] := by
        rw [Ne, List.take_eq_nil_iff, not_or]
        exact ⟨Nat.succ_ne_zero n, List.ne_nil_of_length_pos (by omega)⟩
      obtain ⟨lo, hi, hext⟩ := exists_extremes hne
      have hlo := hxs lo (List.mem_of_mem_take hext.mem.1)
      have hlo₀ : 0 ≤ lo.val := (Binary64.le_iff_val rfl hlo.1).mp hlo.nonneg
      have hlen : (xs.take (n + 1)).length - 1 = n := by rw [List.length_take]; omega
      rw [hlen]
      exact ⟨lo, hi, hext, within_after ht hxs hlo₀ n hn hext.between e he⟩

end Run

/-! ## The text -/

/-- Folding samples into the text folds them into the state that it holds. -/
theorem exists_foldlM_update {it : Interpreter} (hit : it.Faithful) {t : Thresholds} (ht : t.Valid)
    (xs : List Binary64) : ∀ {raw : Option Text} {st : RttState}, decodeState it raw = .ok st →
    ∃ raw', xs.foldlM (fun raw x => update it t x raw) raw = .ok raw' ∧
      decodeState it raw' = .ok (xs.foldl (fun s x => advance s x t) st) := by
  induction xs with
  | nil => exact fun h => ⟨_, rfl, h⟩
  | cons x xs ih =>
    intro raw st h
    have hstep := decodeState_encodeState hit (advance_storable ht (decodeState_storable h) x)
    obtain ⟨raw', hraw', hdecode⟩ := ih hstep
    refine ⟨raw', ?_, hdecode⟩
    rw [List.foldlM_cons, update, h]
    exact hraw'

/-- The states of a run are as `Made` says, each of them is read back as it was written, and
samples folded through the text lead to the same states. -/
theorem storage_transparent (it : Interpreter) (hit : it.Faithful) (t : Thresholds) (ht : t.Valid)
    (xs : List Binary64) (hxs : ∀ x ∈ xs, Usable x) (n : Nat) (hn : n ≤ xs.length) :
    (after t {} xs n).Made t (xs.take n) ∧
      decodeState it (some (encodeState it.py (after t {} xs n))) = .ok (after t {} xs n) ∧
      ∃ raw, (xs.take n).foldlM (fun raw x => update it t x raw) none = .ok raw ∧
        decodeState it raw = .ok (after t {} xs n) :=
  ⟨made_after ht hxs hn,
    decodeState_encodeState hit (storable_after ht storable_fresh xs n),
    exists_foldlM_update hit ht (xs.take n) rfl⟩

/-- Two samples that start a count towards the middle tier. -/
theorem storage_transparent_crisp :
    (after crisp {} [ms 155, ms 160] 2).Made crisp [ms 155, ms 160] ∧
      ∃ raw, [ms 155, ms 160].foldlM (fun raw x => update mockInterpreter crisp x raw) none =
        .ok raw ∧ decodeState mockInterpreter raw = .ok (after crisp {} [ms 155, ms 160] 2) :=
  have h := storage_transparent mockInterpreter mockInterpreter_faithful crisp crisp_valid
    [ms 155, ms 160] (by decide +kernel) 2 (by decide)
  ⟨h.1, h.2.2⟩

/-- The thresholds that `Settings` starts from. -/
def defaultThresholds : Thresholds := ⟨ms 150, ms 500, ms 30, 3, Binary64.ofRat (3 / 10)⟩

/-- The average of a sample with itself is below the sample. -/
theorem average_leaves_samples : defaultThresholds.Valid ∧ Usable (ms 3) ∧
    ∃ e, (after defaultThresholds {} [ms 3, ms 3] 2).ewma = some e ∧ e.lt (ms 3) = true := by
  refine ⟨⟨?_, ?_, ?_, ?_, ?_⟩, ?_, smooth ⟨some (ms 3), .good, none, 0⟩ (ms 3) defaultThresholds,
    ?_, ?_⟩
  all_goals decide +kernel

end Detector

end AdaptiveGateway
