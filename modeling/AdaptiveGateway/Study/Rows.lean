/-
The checks that every observation of a study has to pass.

An observation is a dictionary of the interpreter, so each check asks for the kind of a
value before it computes with it.  A value that is no member of a set because it cannot
be hashed raises `TypeError`.

What the identity of a row can be is known once its first checks have passed: four
strings and an integer, which Python compares as they are.
-/
import AdaptiveGateway.Python.Equality

namespace AdaptiveGateway
namespace Study

open Codec Python

inductive Exc where
  | valueError (message : Text)
  | typeError
  | keyError
  | recursionError
deriving DecidableEq

abbrev Row := List (Str × Value)

/-- `row.get(key)`, which is `row[key]` for a key that is there. -/
def item (row : Row) (key : Str) : Value := (Dict.lookup key row).getD .null

/-- `if b: raise ValueError(message)` -/
def refuse (b : Bool) (message : Text) : Except Exc Unit :=
  if b then .error (.valueError message) else .ok ()

/-- `v in {...}`, for a set of strings. -/
def memberOf (v : Value) (names : List Str) : Except Exc Bool :=
  if v.hashable then .ok (names.any fun s => v.eq (.str s)) else .error .typeError

/-! ## Identity -/

def REQUIRED : List Str :=
  ["trial_id", "condition", "mode", "system", "request_id", "phase", "latency_ms", "status",
    "encoded_bytes", "decoded_bytes", "success", "timeout", "valid_response",
    "transport_complete", "item_retention", "field_coverage", "reduced",
    "required_values_preserved", "schema_version", "started_utc", "cache_status"]

def CONDITIONS : List Str := ["GOOD", "DEGRADED", "POOR"]

def MODES : List Str := ["full", "compression", "removal", "combined", "adaptive"]

def checkVersion (row : Row) : Except Exc Unit :=
  refuse (REQUIRED.any (fun key => (Dict.lookup key row).isNone) ||
    !(item row "schema_version").eq (.int 2)) "Not a version-2 observation"

def checkPhase (row : Row) : Except Exc Unit := do
  let known ← memberOf (item row "phase") ["warmup", "measured"]
  refuse (!known || !(item row "system").eq (item row "mode")) "Invalid observation identity"

def isStr : Value → Bool
  | .str _ => true
  | _ => false

def checkNames (row : Row) : Except Exc Unit := do
  let condition ← memberOf (item row "condition") CONDITIONS
  refuse (!condition) "Invalid observation identity"
  let mode ← memberOf (item row "mode") MODES
  refuse (!mode || !isStr (item row "trial_id") || !(item row "trial_id").truthy)
    "Invalid observation identity"

def checkRequestId (row : Row) : Except Exc Unit :=
  let id := item row "request_id"
  refuse (!id.isInt || id.isBool || id.less 1) "Invalid request ID"

def checkIdentity (row : Row) : Except Exc Unit := do
  checkVersion row
  checkPhase row
  checkNames row
  checkRequestId row

def IDENTITY : List Str := ["trial_id", "condition", "mode", "phase", "request_id"]

def identity (row : Row) : List Value := IDENTITY.map (item row)

/-! ## Contents -/

def nonfinite : Value → Bool
  | .float x => !x.isFinite
  | _ => false

/-- The loop over `row.items()`. -/
def checkItem (e : Str × Value) : Except Exc Unit := do
  refuse (nonfinite e.2) "Nonfinite observation"
  if e.1 ∈ (["latency_ms", "encoded_bytes", "decoded_bytes"] : List Str) then
    if e.2 = .null ∧ e.1 = ("decoded_bytes" : Str) then return
    refuse (!e.2.isNumber || e.2.isBool || e.2.less 0) "Negative/invalid measurement"

def checkOutcome (row : Row) (key : Str) : Except Exc Unit :=
  refuse (!(item row key).isBool) "Nonboolean outcome"

def checkCount (row : Row) (key : Str) : Except Exc Unit :=
  let value := item row key
  refuse (decide (value ≠ .null) && (!value.isInt || value.isBool || value.less 0))
    "Invalid byte/field/item count"

def checkContent (row : Row) (key : Str) : Except Exc Unit :=
  refuse (decide (item row key ≠ .null) && !(item row key).isBool) "Nonboolean content outcome"

def checkStatus (row : Row) : Except Exc Unit :=
  let status := item row "status"
  refuse (!status.isInt || status.isBool ||
    !status.eq (.int 0) && !(!status.less 100 && !status.more 599)) "Invalid HTTP status"

/-- `row["transport_complete"] and 200 <= status < 300`, for a boolean. -/
def succeeds (row : Row) : Bool :=
  (item row "transport_complete").truthy &&
    (!(item row "status").less 200 && (item row "status").less 300)

def checkSuccess (row : Row) : Except Exc Unit :=
  refuse (!(item row "success").eq (.bool (succeeds row))) "Inconsistent HTTP success"

def MEASURED : List Str :=
  ["item_retention", "field_coverage", "reduced", "required_values_preserved"]

def FLAGS : List Str :=
  ["encoding_valid", "json_valid", "fixture_valid", "mode_valid", "metadata_valid"]

def checkValid (row : Row) : Except Exc Unit :=
  refuse ((item row "valid_response").truthy &&
    (!(item row "success").truthy || !(item row "status").eq (.int 200) ||
      !(item row "cache_status").eq (.str "BYPASS") ||
      decide (item row "decoded_bytes" = .null) ||
      MEASURED.any (fun key => decide (item row key = .null)) ||
      !FLAGS.all fun key => decide (item row key = .bool true))) "Inconsistent valid response"

def checkCoverage (row : Row) (key : Str) : Except Exc Unit :=
  let value := item row key
  refuse (decide (value ≠ .null) && (!value.isNumber || value.isBool || value.less 0 ||
    (item row "valid_response").truthy && value.more 1)) "Invalid coverage"

def OUTCOMES : List Str := ["success", "timeout", "valid_response", "transport_complete"]

def COUNTS : List Str :=
  ["encoded_bytes", "decoded_bytes", "item_count", "required_present", "optional_present"]

def CONTENTS : List Str := ["reduced", "required_values_preserved", "json_valid"]

def COVERAGE : List Str := ["item_retention", "field_coverage"]

def checkContents (row : Row) : Except Exc Unit := do
  row.forM checkItem
  OUTCOMES.forM (checkOutcome row)
  COUNTS.forM (checkCount row)
  CONTENTS.forM (checkContent row)
  checkStatus row
  checkSuccess row
  checkValid row
  COVERAGE.forM (checkCoverage row)

/-! ## The stream -/

/-- The rest of `validated_rows`, when these identities have been met. -/
def validate (seen : List (List Value)) : List Value → Except Exc (List Row)
  | [] => .ok []
  | .dict row :: rows => do
    checkIdentity row
    refuse (seen.any fun other => Value.eqElems (identity row) other) "Duplicate observation"
    checkContents row
    let rest ← validate (identity row :: seen) rows
    return row :: rest
  | _ :: _ => .error (.valueError "Observation must be an object")

/-- `list(validated_rows(rows))` -/
def validatedRows (rows : List Value) : Except Exc (List Row) := do
  let checked ← validate [] rows
  refuse rows.isEmpty "No observations"
  return checked

/-- The row passes every check that looks at it alone. -/
def Passes (row : Row) : Prop := checkIdentity row = .ok () ∧ checkContents row = .ok ()

/-! ## Checks that pass -/

theorem refuse_ok {b : Bool} {message : Text} : refuse b message = .ok () ↔ b = false := by
  cases b <;> simp [refuse]

theorem bind_ok {α β : Type} {x : Except Exc α} {f : α → Except Exc β} {b : β} :
    (x >>= f) = .ok b ↔ ∃ a, x = .ok a ∧ f a = .ok b := by
  cases x <;> simp [bind, Except.bind]

theorem seq_ok {β : Type} {x : Except Exc Unit} {y : Except Exc β} {b : β} :
    (x >>= fun _ => y) = .ok b ↔ x = .ok () ∧ y = .ok b := by
  rw [bind_ok]
  exact ⟨fun ⟨_, hx, hy⟩ => ⟨hx, hy⟩, fun ⟨hx, hy⟩ => ⟨(), hx, hy⟩⟩

theorem forM_ok {α : Type} {f : α → Except Exc Unit} {xs : List α} :
    xs.forM f = .ok () ↔ ∀ x ∈ xs, f x = .ok () := by
  induction xs with
  | nil => simp [List.forM, pure, Except.pure]
  | cons x xs ih =>
    rw [List.forall_mem_cons, ← ih]
    exact seq_ok

theorem memberOf_ok {v : Value} {names : List Str} :
    memberOf v names = .ok true ↔ ∃ s ∈ names, v = .str s := by
  rw [memberOf]
  constructor
  · intro h
    split at h
    next =>
      obtain ⟨s, hs, hv⟩ := List.any_eq_true.mp (Except.ok.inj h)
      exact ⟨s, hs, Value.eq_str.mp hv⟩
    next => cases h
  · rintro ⟨s, hs, rfl⟩
    have hany : (names.any fun other => Value.eq (.str s) (.str other)) = true :=
      List.any_eq_true.mpr ⟨s, hs, Value.eq_str.mpr rfl⟩
    exact congrArg Except.ok hany

/-! ## Identities -/

structure Identity where
  trialId : Str
  condition : Str
  mode : Str
  phase : Str
  requestId : ℤ
deriving DecidableEq

def Identity.values (p : Identity) : List Value :=
  [.str p.trialId, .str p.condition, .str p.mode, .str p.phase, .int p.requestId]

theorem Identity.values_injective {p q : Identity} (h : p.values = q.values) : p = q := by
  cases p
  cases q
  simp only [values, List.cons.injEq, Value.str.injEq, Value.int.injEq] at h
  simp [h]

/-- Python compares two identities as they are. -/
theorem Identity.eqElems_values {p q : Identity} :
    Value.eqElems p.values q.values = true ↔ p = q := by
  constructor
  · intro h
    simp only [values, Value.eqElems, Bool.and_eq_true, Value.eq_str, Value.str.injEq,
      Value.int_eq_int] at h
    cases p
    cases q
    simp_all
  · rintro rfl
    simp [values, Value.eqElems, Value.eq_str, Value.int_eq_int]

theorem checkPhase_ok {row : Row} (h : checkPhase row = .ok ()) :
    ∃ s, item row "phase" = .str s := by
  obtain ⟨known, hknown, hrest⟩ := bind_ok.mp h
  rw [refuse_ok, Bool.or_eq_false_iff, Bool.not_eq_false'] at hrest
  rw [hrest.1] at hknown
  obtain ⟨s, -, hs⟩ := memberOf_ok.mp hknown
  exact ⟨s, hs⟩

theorem checkNames_ok {row : Row} (h : checkNames row = .ok ()) :
    ∃ trial condition mode, item row "trial_id" = .str trial ∧
      item row "condition" = .str condition ∧ item row "mode" = .str mode := by
  obtain ⟨c, hcondition, h⟩ := bind_ok.mp h
  obtain ⟨hc, h⟩ := seq_ok.mp h
  obtain ⟨m, hmode, h⟩ := bind_ok.mp h
  rw [refuse_ok, Bool.not_eq_false'] at hc
  rw [refuse_ok, Bool.or_eq_false_iff, Bool.or_eq_false_iff, Bool.not_eq_false',
    Bool.not_eq_false'] at h
  rw [hc] at hcondition
  rw [h.1.1] at hmode
  obtain ⟨condition, -, hcondition⟩ := memberOf_ok.mp hcondition
  obtain ⟨mode, -, hmode⟩ := memberOf_ok.mp hmode
  have htrial : ∃ trial, item row "trial_id" = .str trial := by
    cases hitem : item row "trial_id" with
    | str trial => exact ⟨trial, rfl⟩
    | _ =>
      rw [hitem] at h
      cases h.1.2
  obtain ⟨trial, htrial⟩ := htrial
  exact ⟨trial, condition, mode, htrial, hcondition, hmode⟩

theorem checkRequestId_ok {row : Row} (h : checkRequestId row = .ok ()) :
    ∃ n, item row "request_id" = .int n := by
  rw [checkRequestId, refuse_ok, Bool.or_eq_false_iff, Bool.or_eq_false_iff,
    Bool.not_eq_false'] at h
  obtain ⟨⟨hint, hbool⟩, -⟩ := h
  cases hitem : item row "request_id" with
  | int n => exact ⟨n, rfl⟩
  | bool b =>
    rw [hitem] at hbool
    cases hbool
  | _ =>
    rw [hitem] at hint
    cases hint

/-- What the first checks let pass has four strings and an integer for its identity. -/
theorem identity_of_checked {row : Row} (h : checkIdentity row = .ok ()) :
    ∃ p : Identity, identity row = p.values := by
  obtain ⟨-, h⟩ := seq_ok.mp h
  obtain ⟨hphase, h⟩ := seq_ok.mp h
  obtain ⟨hnames, hid⟩ := seq_ok.mp h
  obtain ⟨phase, hphase⟩ := checkPhase_ok hphase
  obtain ⟨trial, condition, mode, htrial, hcondition, hmode⟩ := checkNames_ok hnames
  obtain ⟨n, hn⟩ := checkRequestId_ok hid
  refine ⟨⟨trial, condition, mode, phase, n⟩, ?_⟩
  simp only [identity, IDENTITY, Identity.values, List.map_cons, List.map_nil, htrial, hcondition,
    hmode, hphase, hn]

/-! ## Sequences that pass -/

theorem repeated_iff {seen : List (List Value)} (hseen : ∀ other ∈ seen, ∃ p : Identity,
    other = p.values) (p : Identity) :
    (seen.any fun other => Value.eqElems p.values other) = false ↔ p.values ∉ seen := by
  rw [List.any_eq_false]
  constructor
  · exact fun h hp => h p.values hp (Identity.eqElems_values.mpr rfl)
  · intro h other hother heq
    obtain ⟨q, rfl⟩ := hseen other hother
    rw [Identity.eqElems_values.mp heq] at h
    exact h hother

/-- The stream passes if every row does and no identity comes twice. -/
theorem validate_ok {seen : List (List Value)} {rows : List Value} {out : List Row}
    (hseen : ∀ other ∈ seen, ∃ p : Identity, other = p.values) :
    validate seen rows = .ok out ↔ rows = out.map .dict ∧ (∀ row ∈ out, Passes row) ∧
      (out.map identity).Nodup ∧ ∀ row ∈ out, identity row ∉ seen := by
  induction rows generalizing seen out with
  | nil =>
    rw [validate]
    constructor
    · intro h
      cases h
      simp
    · rintro ⟨h, -⟩
      rw [List.map_eq_nil_iff.mp h.symm]
  | cons v rows ih =>
    have hnext : ∀ row, checkIdentity row = .ok () →
        ∀ other ∈ identity row :: seen, ∃ p : Identity, other = p.values := fun row hrow =>
      List.forall_mem_cons.mpr ⟨identity_of_checked hrow, hseen⟩
    cases v with
    | dict row =>
      rw [validate, seq_ok, seq_ok, seq_ok, bind_ok, refuse_ok]
      constructor
      · rintro ⟨hidentity, hnew, hcontents, rest, hrest, hout⟩
        cases hout
        obtain ⟨hrows, hpass, hnodup, hfresh⟩ := (ih (hnext row hidentity)).mp hrest
        obtain ⟨p, hp⟩ := identity_of_checked hidentity
        rw [hp] at hnew
        have hp' := (repeated_iff hseen p).mp hnew
        refine ⟨by rw [hrows, List.map_cons],
          List.forall_mem_cons.mpr ⟨⟨hidentity, hcontents⟩, hpass⟩, ?_,
          List.forall_mem_cons.mpr ⟨hp ▸ hp', fun other hother hmem => ?_⟩⟩
        · refine List.nodup_cons.mpr ⟨fun hmem => ?_, hnodup⟩
          obtain ⟨other, hother, heq⟩ := List.mem_map.mp hmem
          exact hfresh other hother (heq ▸ List.mem_cons_self)
        · exact hfresh other hother (List.mem_cons_of_mem _ hmem)
      · rintro ⟨hrows, hpass, hnodup, hfresh⟩
        cases out with
        | nil => cases hrows
        | cons row' rest =>
          obtain ⟨hrow, htail⟩ := List.cons.inj hrows
          cases hrow
          obtain ⟨hidentity, hcontents⟩ := hpass row List.mem_cons_self
          obtain ⟨p, hp⟩ := identity_of_checked hidentity
          obtain ⟨hnot, hnodup⟩ := List.nodup_cons.mp hnodup
          refine ⟨hidentity, ?_, hcontents, rest, (ih (hnext row hidentity)).mpr ⟨htail,
            fun r hr => hpass r (List.mem_cons_of_mem _ hr), hnodup, fun r hr hmem => ?_⟩, rfl⟩
          · rw [hp]
            exact (repeated_iff hseen p).mpr (hp ▸ hfresh row List.mem_cons_self)
          · rcases List.mem_cons.mp hmem with heq | hmem
            · exact hnot (List.mem_map.mpr ⟨r, hr, heq⟩)
            · exact hfresh r (List.mem_cons_of_mem _ hr) hmem
    | _ =>
      constructor
      · intro h
        cases h
      · rintro ⟨hrows, -⟩
        cases out with
        | nil => cases hrows
        | cons row' rest => cases (List.cons.inj hrows).1

/-- `validated_rows` accepts a sequence of dictionaries that is not empty, if each of
them passes and no two have the same identity. -/
theorem validatedRows_ok {rows : List Value} {out : List Row} :
    validatedRows rows = .ok out ↔ rows = out.map .dict ∧ out ≠ [] ∧ (∀ row ∈ out, Passes row) ∧
      (out.map identity).Nodup := by
  rw [validatedRows, bind_ok]
  constructor
  · rintro ⟨checked, hchecked, h⟩
    obtain ⟨hempty, hout⟩ := seq_ok.mp h
    cases hout
    obtain ⟨hrows, hpass, hnodup, -⟩ := (validate_ok (by simp)).mp hchecked
    refine ⟨hrows, ?_, hpass, hnodup⟩
    rintro rfl
    rw [hrows] at hempty
    cases hempty
  · rintro ⟨hrows, hne, hpass, hnodup⟩
    refine ⟨out, (validate_ok (by simp)).mpr ⟨hrows, hpass, hnodup, by simp⟩, ?_⟩
    refine seq_ok.mpr ⟨refuse_ok.mpr ?_, rfl⟩
    rw [hrows, List.isEmpty_map, List.isEmpty_eq_false_iff]
    exact hne

end Study
end AdaptiveGateway
