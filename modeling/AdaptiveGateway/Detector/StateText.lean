/-
The classifier state as the text stored in Redis.

`decodeState` reads whatever the key holds.  A text that is no JSON object, or one
with a field of the wrong kind, is a fresh state.  Two exceptions are not caught:
`json.loads` and `str` run out of stack on what is nested too deep, and `int` of an
infinite `pending_count` raises `OverflowError`.
-/
import AdaptiveGateway.Detector.RttState
import AdaptiveGateway.Numbers
import AdaptiveGateway.Python.Loads

namespace AdaptiveGateway

open Codec Numeric Python
open Binary64 (zero)

namespace Detector

/-- What escapes `_decode_state`. -/
inductive StateExc where
  | overflowError
  | recursionError
deriving DecidableEq, Repr

/-- What `_decode_state` takes from the interpreter. -/
structure Interpreter where
  py : Numbers
  /-- `json.loads` of this text raises `RecursionError`. -/
  scanTooDeep : Text → Bool
  /-- `str` of this list or dictionary raises `RecursionError`. -/
  strTooDeep : Value → Bool

def opens (c : Char) : Bool := c == '[' || c == '{'

structure Interpreter.Faithful (it : Interpreter) : Prop where
  numbers : it.py.Faithful
  /-- No recursion is needed where no bracket opens behind the first character. -/
  flat : ∀ c t, t.any opens = false → it.scanTooDeep (c :: t) = false

namespace Interpreter

variable (it : Interpreter)

/-- `json.loads`, `none` for `ValueError`. -/
def loads (t : Text) : Option Value := Value.loads it.py.int it.py.float (Str.ofText t)

/-- The characters of a string, if none of its code points is a surrogate.  Otherwise
`int` and `float` raise `ValueError`. -/
def textOf (s : Str) : Option Text :=
  s.mapM fun p => if 0xd800 ≤ p.val ∧ p.val ≤ 0xdfff then none else some (Char.ofNat p.val)

/-- `_parse_float`, of what `float` makes of a text. -/
def parseFloat (x : Option Binary64) : Option Binary64 :=
  x.filter fun x => x.isFinite && zero.le x

/-- `_parse_float(str(ewma))` and `float(ewma)` for a value that is not `None`.  The text of
a float reads back as the float. -/
def readEwma : Value → Except StateExc (Option (Option Binary64))
  | .null => .ok (some none)
  | .bool _ => .ok none
  | .int n => .ok ((parseFloat (it.py.float (intText n))).map some)
  | .float x => .ok ((parseFloat (some x)).map some)
  | .negZero => .ok ((parseFloat (some .zero)).map some)
  | .str s => .ok ((parseFloat ((textOf s).bind it.py.float)).map some)
  | v => if it.strTooDeep v then .error .recursionError else .ok none

/-- `int` of a float. -/
def truncate : Binary64 → Except StateExc (Option Int)
  | .nan => .ok none
  | .inf _ => .error .overflowError
  | .fin q _ _ => .ok (some (Int.tdiv q.num q.den))

/-- `int(v)`, with `none` for `ValueError` and `TypeError`. -/
def toInt : Value → Except StateExc (Option Int)
  | .bool b => .ok (some b.toNat)
  | .int n => .ok (some n)
  | .float x => truncate x
  | .negZero => .ok (some 0)
  | .str s => .ok ((textOf s).bind it.py.int)
  | _ => .ok none

end Interpreter

def Tier.value : Tier → Text
  | good => "GOOD"
  | degraded => "DEGRADED"
  | poor => "POOR"

/-- The tier that a value names.  Whatever is not one of the three strings is outside
the set, or cannot be looked up in a set at all; both end the same way. -/
def Tier.ofValue : Value → Option Tier
  | .str s =>
    if s = .ofText (Tier.value .good) then some .good
    else if s = .ofText (Tier.value .degraded) then some .degraded
    else if s = .ofText (Tier.value .poor) then some .poor
    else none
  | _ => none

/-- `data.get(key, default)`. -/
def getField (data : List (Str × Value)) (key : Str) (default : Value := .null) : Value :=
  (Dict.lookup key data).getD default

def readPending : Value → Option (Option Tier)
  | .null => some none
  | v => (Tier.ofValue v).map some

/-- The `try` block of `_decode_state` on a dictionary, with `none` for a state that is
refused or for an exception that is caught. -/
def readState (it : Interpreter) (data : List (Str × Value)) :
    Except StateExc (Option RttState) :=
  match Tier.ofValue (getField data "tier" (.str "GOOD")) with
  | none => .ok none
  | some tier =>
    match readPending (getField data "pending_tier") with
    | none => .ok none
    | some pending =>
      match it.readEwma (getField data "ewma") with
      | .error e => .error e
      | .ok none => .ok none
      | .ok (some ewma) =>
        match it.toInt (getField data "pending_count" (.int 0)) with
        | .error e => .error e
        | .ok count => .ok (count.map fun n => ⟨ewma, tier, pending, n⟩)

/-- `_decode_state`. -/
def decodeState (it : Interpreter) : Option Text → Except StateExc RttState
  | none => .ok {}
  | some [] => .ok {}
  | some raw =>
    if it.scanTooDeep raw then .error .recursionError
    else match it.loads raw with
      | some (.dict data) =>
        match readState it data with
        | .ok st => .ok (st.getD {})
        | .error e => .error e
      | _ => .ok {}

/-- `asdict`. -/
def RttState.asDict (s : RttState) : List (Str × Value) :=
  [("ewma", s.ewma.elim .null .float),
    ("tier", .str (.ofText s.tier.value)),
    ("pending_tier", s.pendingTier.elim .null fun c => .str (.ofText c.value)),
    ("pending_count", .int s.pendingCount)]

/-- `json.dumps(asdict(state))`. -/
def encodeState (py : Numbers) (s : RttState) : Text := Value.dumps py.repr [' '] (.dict s.asDict)

/-! ## The round trip -/

/-- What `decodeState` lets through: the average is a nonnegative number. -/
def RttState.Storable (s : RttState) : Prop :=
  ∀ e, s.ewma = some e → e.isFinite = true ∧ zero.le e = true

theorem storable_fresh : ({} : RttState).Storable := fun _ he => by cases he

theorem Tier.ofValue_value (c : Tier) : Tier.ofValue (.str (.ofText c.value)) = some c := by
  cases c <;> decide

theorem Tier.value_closed (c : Tier) : (Value.dumpsStr (.ofText c.value)).any opens = false := by
  cases c <;> decide

/-- A number has no bracket in it. -/
theorem any_opens_number {t : Text} (h : Json.IsNumber t) : t.any opens = false := by
  have hprint := (Rfc8259.number_of_isNumber h).numeral
  refine List.any_eq_false.mpr fun c hc hopens => ?_
  have hchar := List.all_eq_true.mp hprint c hc
  rw [opens, Bool.or_eq_true, beq_iff_eq, beq_iff_eq] at hopens
  rcases hopens with rfl | rfl <;> exact absurd hchar (by decide)

section RoundTrip

variable {it : Interpreter} (hit : it.Faithful) {s : RttState} (hs : s.Storable)

include hs

theorem plain_asDict : Value.Plain (.dict s.asDict) := by
  have hkeys : s.asDict.map Prod.fst =
      (["ewma", "tier", "pending_tier", "pending_count"] : List Str) := rfl
  refine ⟨by rw [hkeys]; decide, Value.scalar_ofText _, ?_, Value.scalar_ofText _,
    Value.scalar_ofText _, Value.scalar_ofText _, ?_, Value.scalar_ofText _, trivial, trivial⟩
  · cases he : s.ewma with
    | none => trivial
    | some e => exact (hs e he).1
  · cases s.pendingTier with
    | none => trivial
    | some c => exact Value.scalar_ofText _

include hit

theorem encodeState_shallow : it.scanTooDeep (encodeState it.py s) = false := by
  have hewma : (Value.dumps it.py.repr [' '] (s.ewma.elim .null .float)).any opens = false := by
    cases he : s.ewma with
    | none => rfl
    | some e =>
      obtain ⟨q, hq, hq', rfl⟩ := Binary64.exists_fin (hs e he).1
      exact any_opens_number (hit.numbers.repr_number _ rfl)
  have hpending : (Value.dumps it.py.repr [' ']
      (s.pendingTier.elim .null fun c => .str (.ofText c.value))).any opens = false := by
    cases s.pendingTier with
    | none => rfl
    | some c => exact c.value_closed
  have htier : (Value.dumps it.py.repr [' '] (.str (.ofText s.tier.value))).any opens = false :=
    s.tier.value_closed
  have hcount : (Value.dumps it.py.repr [' '] (.int s.pendingCount)).any opens = false :=
    any_opens_number (Json.isNumber_intText s.pendingCount)
  have hkeys : ∀ k ∈ (["ewma", "tier", "pending_tier", "pending_count"] : List Str),
      (Value.dumpsStr k).any opens = false := by decide
  simp only [List.forall_mem_cons] at hkeys
  obtain ⟨hk₁, hk₂, hk₃, hk₄, -⟩ := hkeys
  refine hit.flat '{' _ ?_
  simp only [RttState.asDict, Value.dumpsMembers, List.any_append, List.any_cons, List.any_nil,
    hewma, hpending, htier, hcount, hk₁, hk₂, hk₃, hk₄]
  decide

theorem loads_encodeState : it.loads (encodeState it.py s) = some (.dict s.asDict) :=
  Value.loads_dumps hit.numbers.converts (by simp [Rfc8259.Ws]) (plain_asDict hs)

omit hit in
theorem readState_asDict : readState it s.asDict = .ok (some s) := by
  have htier : Tier.ofValue (getField s.asDict "tier" (.str "GOOD")) = some s.tier :=
    Tier.ofValue_value s.tier
  have hpending : readPending (getField s.asDict "pending_tier") = some s.pendingTier := by
    show readPending (s.pendingTier.elim .null fun c => .str (.ofText c.value)) = _
    cases s.pendingTier with
    | none => rfl
    | some c =>
      show (Tier.ofValue (.str (.ofText c.value))).map some = _
      rw [Tier.ofValue_value]
      rfl
  have hewma : it.readEwma (getField s.asDict "ewma") = .ok (some s.ewma) := by
    show it.readEwma (s.ewma.elim .null .float) = _
    cases he : s.ewma with
    | none => rfl
    | some e =>
      show Except.ok ((Interpreter.parseFloat (some e)).map some) = _
      rw [Interpreter.parseFloat, Option.filter_some, (hs e he).1, (hs e he).2]
      rfl
  have hcount : it.toInt (getField s.asDict "pending_count" (.int 0)) =
      .ok (some s.pendingCount) := rfl
  simp only [readState, htier, hpending, hewma, hcount, Option.map_some]

/-- A stored state is read back as it was. -/
theorem decodeState_encodeState : decodeState it (some (encodeState it.py s)) = .ok s := by
  have hne : encodeState it.py s ≠ [] := List.cons_ne_nil _ _
  rw [decodeState, encodeState_shallow hit hs, loads_encodeState hit hs]
  · simp only [Bool.false_eq_true, if_false, readState_asDict hs, Option.getD_some]
  · exact hne

end RoundTrip

section Storable

variable {it : Interpreter}

theorem parseFloat_some {o : Option Binary64} {x : Binary64}
    (h : Interpreter.parseFloat o = some x) : x.isFinite = true ∧ zero.le x = true := by
  obtain ⟨-, hx⟩ := Option.filter_eq_some_iff.mp h
  exact Bool.and_eq_true_iff.mp hx

theorem readEwma_storable {v : Value} {o : Option Binary64} (h : it.readEwma v = .ok (some o)) :
    ∀ e, o = some e → e.isFinite = true ∧ zero.le e = true := by
  intro e he
  subst he
  have hparsed : ∀ {p : Option Binary64},
      (Except.ok ((Interpreter.parseFloat p).map some) : Except StateExc _) =
        .ok (some (some e)) → e.isFinite = true ∧ zero.le e = true := fun h => by
    obtain ⟨x, hx, hxe⟩ := Option.map_eq_some_iff.mp (Except.ok.inj h)
    exact Option.some.inj hxe ▸ parseFloat_some hx
  cases v with
  | int n => exact hparsed h
  | float x => exact hparsed h
  | negZero => exact hparsed (p := some .zero) h
  | str s => exact hparsed h
  | list xs =>
    rw [Interpreter.readEwma] at h
    · split at h <;> cases h
    all_goals simp
  | dict ms =>
    rw [Interpreter.readEwma] at h
    · split at h <;> cases h
    all_goals simp
  | _ => cases h

theorem readState_storable {data : List (Str × Value)} {s : RttState}
    (h : readState it data = .ok (some s)) : s.Storable := by
  unfold readState at h
  split at h
  · cases h
  split at h
  · cases h
  split at h
  · cases h
  · cases h
  next hewma =>
    split at h
    · cases h
    · obtain ⟨n, -, rfl⟩ := Option.map_eq_some_iff.mp (Except.ok.inj h)
      exact readEwma_storable hewma

theorem decodeState_storable {raw : Option Text} {s : RttState}
    (h : decodeState it raw = .ok s) : s.Storable := by
  unfold decodeState at h
  split at h
  · exact Except.ok.inj h ▸ storable_fresh
  · exact Except.ok.inj h ▸ storable_fresh
  · split at h
    · cases h
    · split at h
      next data _ =>
        split at h
        next st hst =>
          cases st with
          | none => exact Except.ok.inj h ▸ storable_fresh
          | some st =>
            obtain rfl : st = s := Except.ok.inj h
            exact readState_storable hst
        · cases h
      · exact Except.ok.inj h ▸ storable_fresh

end Storable

theorem advance_storable {t : Thresholds} (ht : t.Valid) {s : RttState} (hs : s.Storable)
    (x : Binary64) : (advance s x t).Storable := by
  by_cases hx : Usable x
  · intro e he
    rw [advance_ewma hx] at he
    rw [← Option.some.inj he, smooth]
    cases hprev : s.ewma with
    | none => exact ⟨hx.1, hx.nonneg⟩
    | some e =>
      exact Binary64.weightedMean_nonneg ht.finite.2.2.2 ht.smoothing.1 ht.smoothing.2 hx.1
        hx.nonneg (hs e hprev).1 (hs e hprev).2
  · rw [advance_of_not_usable hx]
    exact hs

theorem storable_after {t : Thresholds} (ht : t.Valid) {st : RttState} (hst : st.Storable)
    (xs : List Binary64) (n : Nat) : (after t st xs n).Storable := by
  rw [after]
  induction xs.take n generalizing st with
  | nil => exact hst
  | cons x xs ih => exact ih (advance_storable ht hst x)

/-! ## The setting of the tests -/

/-- An interpreter with room for everything. -/
noncomputable def mockInterpreter : Interpreter := ⟨mockNumbers, fun _ => false, fun _ => false⟩

theorem mockInterpreter_faithful : mockInterpreter.Faithful :=
  ⟨mockNumbers_faithful, fun _ _ _ => rfl⟩

end Detector

end AdaptiveGateway
