/-
Corrupt classifier states.

"Reject corrupt Redis state without failing client traffic."  Most of what a key can hold
is rejected.  What is not is said by `Tolerable`: a text that is nested too deep for the
stack, an infinite `pending_count`, and a count that no run of `advance` would have reached,
which is taken over as it is.
-/
import AdaptiveGateway.Detector.StateText

namespace AdaptiveGateway

namespace Detector

open Codec Numeric Python

/-- A state as `advance` makes it, for `N` transition samples.  That the tiers are among the
three is in their type. -/
structure RttState.WellFormed (N : Int) (s : RttState) : Prop where
  ewma : s.Storable
  count : s.pendingTier ≠ none → 0 ≤ s.pendingCount ∧ s.pendingCount < N

/-- `str(v)` raises `RecursionError`. -/
def Interpreter.strFails (it : Interpreter) : Value → Bool
  | .list xs => it.strTooDeep (.list xs)
  | .dict ms => it.strTooDeep (.dict ms)
  | _ => false

/-- Of a dictionary with acceptable tiers, `ewma` can be written, and next to an acceptable
`ewma` the count is not infinite and, if there is a pending tier, in its bounds. -/
def Harmless (it : Interpreter) (N : Int) (data : List (Str × Value)) : Prop :=
  ∀ tier pending, Tier.ofValue (getField data "tier" (.str "GOOD")) = some tier →
    readPending (getField data "pending_tier") = some pending →
    it.strFails (getField data "ewma") = false ∧
    ∀ ewma, it.readEwma (getField data "ewma") = .ok (some ewma) →
      (∀ negative, getField data "pending_count" (.int 0) ≠ .float (.inf negative)) ∧
      (pending ≠ none → ∀ n, it.toInt (getField data "pending_count" (.int 0)) = .ok (some n) →
        0 ≤ n ∧ n < N)

/-- What the key may hold. -/
def Tolerable (it : Interpreter) (N : Int) (raw : Text) : Prop :=
  raw = [] ∨ it.scanTooDeep raw = false ∧
    ∀ data, it.loads raw = some (.dict data) → Harmless it N data

section

variable {it : Interpreter} {N : Int}

theorem wellFormed_fresh : ({} : RttState).WellFormed N where
  ewma := storable_fresh
  count h := absurd rfl h

/-- The only exception of `ewma` that is not caught. -/
theorem readEwma_ok_iff (it : Interpreter) (v : Value) :
    (∃ o, it.readEwma v = .ok o) ↔ it.strFails v = false := by
  cases v with
  | list xs =>
    rw [Interpreter.strFails, Interpreter.readEwma]
    · cases it.strTooDeep (.list xs) <;> simp
    all_goals simp
  | dict ms =>
    rw [Interpreter.strFails, Interpreter.readEwma]
    · cases it.strTooDeep (.dict ms) <;> simp
    all_goals simp
  | _ => exact iff_of_true ⟨_, rfl⟩ rfl

/-- The only exception of `pending_count` that is not caught. -/
theorem toInt_ok_iff (it : Interpreter) (v : Value) :
    (∃ o, it.toInt v = .ok o) ↔ ∀ negative, v ≠ .float (.inf negative) := by
  cases v with
  | float x =>
    cases x with
    | inf negative => exact iff_of_false (fun ⟨o, ho⟩ => by cases ho) fun h => h negative rfl
    | _ => exact iff_of_true ⟨_, rfl⟩ fun negative h => by cases h
  | _ => exact iff_of_true ⟨_, rfl⟩ fun negative h => by cases h

/-- A refused dictionary is a fresh state. -/
theorem tolerates_refused {o : Except StateExc (Option RttState)} (h : o = .ok none) :
    ∃ st, o = .ok st ∧ (st.getD {}).WellFormed N := ⟨none, h, wellFormed_fresh⟩

/-- The count of a state is well formed, or it is none. -/
theorem wellFormed_map {ewma : Option Binary64} (hewma : ∀ e, ewma = some e →
    e.isFinite = true ∧ Binary64.zero.le e = true) (tier : Tier) (pending : Option Tier)
    (count : Option Int) :
    ((count.map fun n => (⟨ewma, tier, pending, n⟩ : RttState)).getD {}).WellFormed N ↔
      (pending ≠ none → ∀ n, count = some n → 0 ≤ n ∧ n < N) := by
  cases count with
  | none => exact iff_of_true wellFormed_fresh fun _ n hn => by cases hn
  | some n =>
    refine ⟨fun h hpending m hm => ?_, fun h => ⟨hewma, fun hpending => h hpending n rfl⟩⟩
    obtain rfl : n = m := Option.some.inj hm
    exact h.count hpending

theorem readState_tolerates_iff (data : List (Str × Value)) :
    (∃ o, readState it data = .ok o ∧ (o.getD {}).WellFormed N) ↔ Harmless it N data := by
  rw [readState, Harmless]
  cases Tier.ofValue (getField data "tier" (.str "GOOD")) with
  | none => exact iff_of_true (tolerates_refused rfl) fun _ _ h => by cases h
  | some tier =>
    cases readPending (getField data "pending_tier") with
    | none => exact iff_of_true (tolerates_refused rfl) fun _ _ _ h => by cases h
    | some pending =>
      have hstr := readEwma_ok_iff it (getField data "ewma")
      have hint := toInt_ok_iff it (getField data "pending_count" (.int 0))
      simp only [Option.some.injEq]
      rw [← hstr, ← hint]
      cases hewma : it.readEwma (getField data "ewma") with
      | error e => simp
      | ok o =>
        cases o with
        | none => simpa using tolerates_refused rfl
        | some ewma =>
          cases it.toInt (getField data "pending_count" (.int 0)) with
          | error e => simp
          | ok count =>
            have hwell := wellFormed_map (N := N) (readEwma_storable hewma) tier pending count
            simpa using hwell

/-- A key that holds any text is read as a well-formed state exactly if the text is
tolerable. -/
theorem decodeState_tolerates_iff (it : Interpreter) (N : Int) (raw : Text) :
    (∃ s, decodeState it (some raw) = .ok s ∧ s.WellFormed N) ↔ Tolerable it N raw := by
  have hfresh : ∃ s, (.ok {} : Except StateExc RttState) = .ok s ∧ s.WellFormed N :=
    ⟨{}, rfl, wellFormed_fresh⟩
  rw [Tolerable]
  cases raw with
  | nil => exact iff_of_true hfresh (.inl rfl)
  | cons c raw =>
    rw [decodeState, or_iff_right (List.cons_ne_nil c raw)]
    · cases it.scanTooDeep (c :: raw) with
      | true => simp
      | false =>
        simp only [Bool.false_eq_true, if_false, true_and]
        cases it.loads (c :: raw) with
        | none => exact iff_of_true hfresh fun _ h => by cases h
        | some v =>
          cases v with
          | dict data =>
            simp only [Option.some.injEq, Value.dict.injEq, forall_eq']
            rw [← readState_tolerates_iff]
            cases readState it data <;> simp
          | _ => exact iff_of_true hfresh fun _ h => by cases h
    · exact List.cons_ne_nil c raw

end

/-! ## Texts that can be read -/

/-- Of a dictionary with acceptable tiers, `ewma` can be written, and next to an acceptable
`ewma` the count is not infinite. -/
def Convertible (it : Interpreter) (data : List (Str × Value)) : Prop :=
  ∀ tier pending, Tier.ofValue (getField data "tier" (.str "GOOD")) = some tier →
    readPending (getField data "pending_tier") = some pending →
    it.strFails (getField data "ewma") = false ∧
    ∀ ewma, it.readEwma (getField data "ewma") = .ok (some ewma) →
      ∀ negative, getField data "pending_count" (.int 0) ≠ .float (.inf negative)

/-- What a key may hold for it to be read at all. -/
def Readable (it : Interpreter) : Option Text → Prop
  | none => True
  | some raw => raw = [] ∨ it.scanTooDeep raw = false ∧
      ∀ data, it.loads raw = some (.dict data) → Convertible it data

theorem readState_ok_iff (it : Interpreter) (data : List (Str × Value)) :
    (∃ o, readState it data = .ok o) ↔ Convertible it data := by
  rw [readState, Convertible]
  cases Tier.ofValue (getField data "tier" (.str "GOOD")) with
  | none => exact iff_of_true ⟨_, rfl⟩ fun _ _ h => by cases h
  | some tier =>
    cases readPending (getField data "pending_tier") with
    | none => exact iff_of_true ⟨_, rfl⟩ fun _ _ _ h => by cases h
    | some pending =>
      have hstr := readEwma_ok_iff it (getField data "ewma")
      have hint := toInt_ok_iff it (getField data "pending_count" (.int 0))
      simp only [Option.some.injEq]
      rw [← hstr, ← hint]
      cases it.readEwma (getField data "ewma") with
      | error e => simp
      | ok o =>
        cases o with
        | none => simp
        | some ewma => cases it.toInt (getField data "pending_count" (.int 0)) <;> simp

theorem decodeState_ok_iff (it : Interpreter) (raw : Option Text) :
    (∃ st, decodeState it raw = .ok st) ↔ Readable it raw := by
  match raw with
  | none => exact iff_of_true ⟨_, rfl⟩ trivial
  | some [] => exact iff_of_true ⟨_, rfl⟩ (.inl rfl)
  | some (c :: raw) =>
    rw [decodeState, Readable, or_iff_right (List.cons_ne_nil c raw)]
    · cases it.scanTooDeep (c :: raw) with
      | true => simp
      | false =>
        simp only [Bool.false_eq_true, if_false, true_and]
        cases it.loads (c :: raw) with
        | none => exact iff_of_true ⟨_, rfl⟩ fun _ h => by cases h
        | some v =>
          cases v with
          | dict data =>
            simp only [Option.some.injEq, Value.dict.injEq, forall_eq']
            rw [← readState_ok_iff]
            cases readState it data <;> simp
          | _ => exact iff_of_true ⟨_, rfl⟩ fun _ h => by cases h
    · exact List.cons_ne_nil c raw

/-! ## Two corrupt states -/

/-- A count that is no number that an integer can be made of. -/
def infiniteCount : Text := "\x7b\"pending_count\": Infinity\x7d".toList

/-- One more sample changes the tier. -/
def overcounted : List (Str × Value) := [("pending_tier", .str "POOR"), ("pending_count", .int 99)]

theorem loads_overcounted : mockInterpreter.loads
    "\x7b\"pending_tier\": \"POOR\", \"pending_count\": 99\x7d".toList =
      some (.dict overcounted) := by
  have hplain : Value.Plain (.dict overcounted) :=
    ⟨by decide, Value.scalar_ofText _, Value.scalar_ofText _, Value.scalar_ofText _, trivial, trivial⟩
  have htext : Value.dumps mockNumbers.repr [' '] (.dict overcounted) =
      "\x7b\"pending_tier\": \"POOR\", \"pending_count\": 99\x7d".toList := by decide +kernel
  rw [← htext]
  exact Value.loads_dumps mockNumbers_faithful.converts (by simp [Rfc8259.Ws]) hplain

theorem decodeState_infiniteCount :
    decodeState mockInterpreter (some infiniteCount) = .error .overflowError := by
  have hloads : mockInterpreter.loads infiniteCount =
      some (.dict [("pending_count", .float (.inf false))]) := by decide +kernel
  rw [decodeState, hloads]
  · rfl
  · exact (by decide : infiniteCount ≠ [])

/-- The first raises, and the second is taken for a state. -/
theorem decodeState_corrupt :
    decodeState mockInterpreter (some infiniteCount) = .error .overflowError ∧
      ∃ s, decodeState mockInterpreter
        (some "\x7b\"pending_tier\": \"POOR\", \"pending_count\": 99\x7d".toList) = .ok s ∧
        ¬s.WellFormed crisp.transitionSamples := by
  refine ⟨decodeState_infiniteCount, ⟨none, .good, some .poor, 99⟩, ?_, fun h => ?_⟩
  · rw [decodeState, loads_overcounted]
    · rfl
    · exact List.cons_ne_nil _ _
  · exact absurd (h.count (by decide)).2 (by decide)

end Detector

end AdaptiveGateway
