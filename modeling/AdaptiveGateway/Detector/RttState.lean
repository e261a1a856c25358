/-
The RTT tier of a client, with a dwell band and a dwell count.

The module has no I/O: `advance` folds one sample into a state, and the caller
keeps the state.  The smoothed value is an IEEE double.  Below the definitions the
tier is shown to be a debounced value whose proposals are the candidate tiers.
-/
import AdaptiveGateway.Control.Debounce
import AdaptiveGateway.Numeric.Binary64

namespace AdaptiveGateway

namespace Detector

open Numeric Control

inductive Tier where
  | good
  | degraded
  | poor
deriving DecidableEq, Repr

/-- `_ORDER`. -/
def Tier.order : Tier → Nat
  | good => 0
  | degraded => 1
  | poor => 2

theorem Tier.order_injective : Function.Injective Tier.order := by
  intro a b h
  cases a <;> cases b <;> first | rfl | cases h

/-- By severity. -/
instance : LinearOrder Tier := LinearOrder.lift' Tier.order Tier.order_injective

structure RttState where
  ewma : Option Binary64 := none
  tier : Tier := .good
  pendingTier : Option Tier := none
  pendingCount : Int := 0
deriving DecidableEq

structure Thresholds where
  goodMs : Binary64
  degradedMs : Binary64
  hysteresisMs : Binary64
  transitionSamples : Int
  alpha : Binary64

open Binary64 (zero one)

/-- What `Settings.validate_boundaries` checks of the values that `_thresholds`
reads, on top of `allow_inf_nan=False`. -/
structure Thresholds.Valid (t : Thresholds) : Prop where
  finite : t.goodMs.isFinite ∧ t.degradedMs.isFinite ∧ t.hysteresisMs.isFinite ∧ t.alpha.isFinite
  /-- "RTT thresholds must be positive and increasing" -/
  increasing : zero.lt t.goodMs ∧ t.goodMs.lt t.degradedMs
  /-- "RTT hysteresis must be below the GOOD threshold" -/
  hysteresis : zero.le t.hysteresisMs ∧ t.hysteresisMs.lt t.goodMs
  /-- "EWMA alpha must be in (0, 1]" -/
  smoothing : zero.lt t.alpha ∧ t.alpha.le one
  /-- "rtt_transition_samples must be positive" -/
  samples : 0 < t.transitionSamples

/-- `_candidate_tier`. -/
def candidateTier (value : Binary64) (current : Tier) (t : Thresholds) : Tier :=
  let up : Tier :=
    if t.degradedMs.le value then .poor
    else if t.goodMs.le value then .degraded
    else .good
  if current.order ≤ up.order then up
  else
    let goodDown := t.goodMs - t.hysteresisMs
    let degDown := t.degradedMs - t.hysteresisMs
    if current = .poor then
      if degDown.le value then .poor
      else if value.lt goodDown then .good else .degraded
    else if value.lt goodDown then .good else .degraded

/-- The new average. -/
def smooth (state : RttState) (sampleMs : Binary64) (t : Thresholds) : Binary64 :=
  match state.ewma with
  | none => sampleMs
  | some ewma => t.alpha * sampleMs + (one - t.alpha) * ewma

def advance (state : RttState) (sampleMs : Binary64) (t : Thresholds) : RttState :=
  if !sampleMs.isFinite || sampleMs.lt zero then state
  else
    let ewma := smooth state sampleMs t
    let candidate := candidateTier ewma state.tier t
    if candidate = state.tier then
      { ewma := ewma, tier := state.tier, pendingTier := none, pendingCount := 0 }
    else
      let count := if some candidate = state.pendingTier then state.pendingCount + 1 else 1
      if t.transitionSamples ≤ count then
        { ewma := ewma, tier := candidate, pendingTier := none, pendingCount := 0 }
      else
        { ewma := ewma, tier := state.tier, pendingTier := candidate, pendingCount := count }

/-- A sample that `advance` does not ignore. -/
def Usable (x : Binary64) : Prop := x.isFinite = true ∧ x.lt zero = false

instance : DecidablePred Usable := fun _ => inferInstanceAs (Decidable (_ ∧ _))

theorem Usable.nonneg {x : Binary64} (h : Usable x) : zero.le x = true :=
  (Binary64.not_lt_zero h.1).mp h.2

/-- The state after the first `n` samples. -/
def after (t : Thresholds) (st : RttState) (xs : List Binary64) (n : Nat) : RttState :=
  (xs.take n).foldl (fun s x => advance s x t) st

/-! ## The tier is a debounced value -/

def RttState.dwell (s : RttState) : Debounce Tier := ⟨s.tier, s.pendingTier, s.pendingCount⟩

def proposal (s : RttState) (x : Binary64) (t : Thresholds) : Tier :=
  candidateTier (smooth s x t) s.tier t

theorem advance_dwell {s : RttState} {x : Binary64} {t : Thresholds} (hx : Usable x) :
    (advance s x t).dwell = s.dwell.step t.transitionSamples (proposal s x t) := by
  rw [advance, hx.1, hx.2, Debounce.step]
  show RttState.dwell (if proposal s x t = s.tier then _ else _) = _
  by_cases hc : proposal s x t = s.tier
  · rw [if_pos hc, if_pos (show proposal s x t = s.dwell.current from hc)]
    rfl
  · rw [if_neg hc, if_neg (show proposal s x t ≠ s.dwell.current from hc)]
    show RttState.dwell (if t.transitionSamples ≤ s.dwell.nextCount (proposal s x t) then _ else _) = _
    by_cases hN : t.transitionSamples ≤ s.dwell.nextCount (proposal s x t)
    · rw [if_pos hN, if_pos hN]
      rfl
    · rw [if_neg hN, if_neg hN]
      rfl

theorem advance_ewma {s : RttState} {x : Binary64} {t : Thresholds} (hx : Usable x) :
    (advance s x t).ewma = some (smooth s x t) := by
  rw [advance, hx.1, hx.2]
  simp only [Bool.not_true, Bool.or_self, Bool.false_eq_true, if_false]
  split_ifs <;> rfl

theorem advance_of_not_usable {s : RttState} {x : Binary64} {t : Thresholds} (hx : ¬Usable x) :
    advance s x t = s := by
  rw [advance, if_pos]
  rw [Usable, not_and_or, Bool.not_eq_true, Bool.not_eq_false] at hx
  rcases hx with hx | hx <;> rw [hx]
  · rfl
  · exact Bool.or_true _

theorem after_succ (t : Thresholds) (st : RttState) {xs : List Binary64} {n : Nat}
    (h : n < xs.length) :
    after t st xs (n + 1) = advance (after t st xs n) xs[n] t := by
  rw [after, List.take_add_one, List.getElem?_eq_getElem h, List.foldl_append]
  rfl

/-! ## The setting of the tests -/

def ms (n : Nat) : Binary64 := Binary64.ofRat n

/-- The thresholds of the unit tests: with `alpha = 1` the average is the latest
sample. -/
def crisp : Thresholds := ⟨ms 150, ms 500, ms 30, 3, ms 1⟩

theorem crisp_valid : crisp.Valid where
  finite := by decide +kernel
  increasing := by decide +kernel
  hysteresis := by decide +kernel
  smoothing := by decide +kernel
  samples := by decide

end Detector

end AdaptiveGateway
