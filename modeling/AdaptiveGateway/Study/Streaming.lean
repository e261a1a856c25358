/-
Reading a study while it is analysed.

The rows come out of a generator, one after the other, and each of them is counted and
checked before the next line is read.  So a line that is no observation does not matter
if a row in front of it is refused, and the counters are those of the whole file only
after the last row.
-/
import AdaptiveGateway.Study.Analysis

namespace AdaptiveGateway
namespace Study

open Codec Python Numeric

/-- The rows that a generator yields, and how it ends. -/
structure Generator where
  rows : List Row
  ending : Except Exc Unit

namespace Generator

def stop (ending : Except Exc Unit) : Generator := ⟨[], ending⟩

def yield (row : Row) (g : Generator) : Generator := ⟨row :: g.rows, g.ending⟩

/-- `list(g)` -/
def list (g : Generator) : Except Exc (List Row) := do
  g.ending
  return g.rows

theorem list_yield (row : Row) (g : Generator) :
    (g.yield row).list = do
      let rows ← g.list
      return row :: rows := by
  rw [list, list, yield]
  cases g.ending <;> rfl

theorem list_ok {g : Generator} {rows : List Row} :
    g.list = .ok rows ↔ g.ending = .ok () ∧ g.rows = rows := by
  rw [list, seq_ok]
  refine and_congr_right fun _ => ⟨fun h => ?_, fun h => ?_⟩
  · cases h
    rfl
  · rw [h]
    rfl

end Generator

/-! ## The rows of the raw file -/

section

variable (lib : Libraries)

/-- The generator of `load_study`, when these identities are still expected. -/
def observing (raw : Bytes) (digest : Text) (expected : List Identity) : List Bytes → Generator
  | [] => .stop do
    refuse (!expected.isEmpty) "Raw observations do not match the planned schedule"
    refuse (decide (lib.sha256 (lines raw).flatten ≠ digest)) "Raw artifact changed during analysis"
  | line :: rest =>
    match lib.loads line with
    | .error e => .stop (.error e)
    | .ok (.dict row) =>
      if (identity row).all Value.hashable then
        if expected.any fun p => Value.eqElems (identity row) p.values then
          .yield row (observing raw digest
            (expected.eraseP fun p => Value.eqElems (identity row) p.values) rest)
        else .stop (.error (.valueError "Raw observations do not match the planned schedule"))
      else .stop (.error .typeError)
    | .ok _ => .stop (.error (.valueError "Observation must be an object"))

def observationsStream (m : Manifest) (digest : Text) (raw : Bytes) : Generator :=
  match expect [] (planned m) with
  | .error e => .stop (.error e)
  | .ok expected => observing lib raw digest expected (lines raw)

end

/-! ## Counting -/

/-- `invalid` and `smoke_failures`. -/
structure Counters where
  invalid : Nat
  smokeFailures : Nat

/-- `row[key]` -/
def getItem (row : Row) (key : Str) : Except Exc Value :=
  match Dict.lookup key row with
  | none => .error .keyError
  | some v => .ok v

/-- `int(v)`, of a value that is false. -/
def intOfFalse : Value → Except Exc Nat
  | .null | .list _ | .dict _ => .error .typeError
  | .str _ => .error (.valueError "invalid literal for int() with base 10: ''")
  | _ => .ok 0

/-- `int(row["success"] and not row["valid_response"])` -/
def countInvalid (row : Row) : Except Exc Nat := do
  let success ← getItem row "success"
  if success.truthy then
    let valid ← getItem row "valid_response"
    return (!valid.truthy).toNat
  else intOfFalse success

/-- `int(not row["valid_response"])` -/
def countFailure (row : Row) : Except Exc Nat := do
  let valid ← getItem row "valid_response"
  return (!valid.truthy).toNat

def countRow (n : Counters) (row : Row) : Except Exc Counters := do
  let invalid ← countInvalid row
  let failure ← countFailure row
  return ⟨n.invalid + invalid, n.smokeFailures + failure⟩

/-- `counted_rows()`, and what the counters are after it. -/
def countedRows (n : Counters) : List Row → Except Exc Unit → Generator × Counters
  | [], ending => (.stop ending, n)
  | row :: rows, ending =>
    match countRow n row with
    | .error e => (.stop (.error e), n)
    | .ok n' =>
      let rest := countedRows n' rows ending
      (rest.1.yield row, rest.2)

def Generator.counted (g : Generator) : Generator × Counters :=
  countedRows ⟨0, 0⟩ g.rows g.ending

/-- `analyze(g)`: the checks of the rows come before the generator ends. -/
def Generator.analyze (arith : Arithmetic) (order : SetOrder) (g : Generator) :
    Except Exc Analysis := do
  let _ ← validate [] (g.rows.map .dict)
  g.ending
  Study.analyze arith order (.iterator (g.rows.map .dict))

/-! ## What the generator yields -/

section

variable {lib : Libraries} {raw : Bytes} {digest : Text}

theorem list_observing (expected : List Identity) (ls : List Bytes) :
    (observing lib raw digest expected ls).list = observe lib raw digest expected ls := by
  induction ls generalizing expected with
  | nil =>
    rw [observing, observe, Generator.list, Generator.stop, bind_assoc]
  | cons line ls ih =>
    rw [observing, observe]
    cases hline : lib.loads line with
    | error e => rfl
    | ok v =>
      cases v with
      | dict row =>
        by_cases hhash : (identity row).all Value.hashable
        · by_cases hany : expected.any fun p => Value.eqElems (identity row) p.values
          · simp only [if_pos hhash, hany, if_true, Generator.list_yield, ih]
            rfl
          · simp only [if_pos hhash, Bool.eq_false_iff.mpr hany, Bool.not_false]
            rfl
        · simp only [if_neg hhash]
          rfl
      | _ => rfl

theorem list_observationsStream (m : Manifest) :
    (observationsStream lib m digest raw).list = observations lib m digest raw := by
  rw [observationsStream, observations]
  cases expect [] (planned m) with
  | error e => rfl
  | ok expected => exact list_observing expected (lines raw)

end

/-! ## What is counted -/

/-- A complete 2xx response that is not valid. -/
def isInvalid (row : Row) : Bool := flag row "success" && !flag row "valid_response"

def isFailure (row : Row) : Bool := !flag row "valid_response"

theorem getItem_ok {row : Row} {key : Str} {v : Value} (h : getItem row key = .ok v) :
    item row key = v := by
  rw [getItem] at h
  rw [item]
  cases hlookup : Dict.lookup key row with
  | none =>
    rw [hlookup] at h
    cases h
  | some w =>
    rw [hlookup] at h
    cases h
    rfl

theorem intOfFalse_ok {v : Value} {k : Nat} (h : intOfFalse v = .ok k) : k = 0 := by
  cases v <;> cases h <;> rfl

theorem countInvalid_ok {row : Row} {k : Nat} (h : countInvalid row = .ok k) :
    k = (isInvalid row).toNat := by
  obtain ⟨success, hsuccess, h⟩ := bind_ok.mp h
  rw [isInvalid, flag, flag, getItem_ok hsuccess]
  split at h
  next htrue =>
    obtain ⟨valid, hvalid, h⟩ := bind_ok.mp h
    cases h
    rw [getItem_ok hvalid, htrue, Bool.true_and]
  next hfalse =>
    rw [intOfFalse_ok h, Bool.eq_false_iff.mpr hfalse]
    rfl

theorem countFailure_ok {row : Row} {k : Nat} (h : countFailure row = .ok k) :
    k = (isFailure row).toNat := by
  obtain ⟨valid, hvalid, h⟩ := bind_ok.mp h
  cases h
  rw [isFailure, flag, getItem_ok hvalid]

theorem countP_cons_toNat (p : Row → Bool) (row : Row) (rows : List Row) :
    (row :: rows).countP p = (p row).toNat + rows.countP p := by
  rw [List.countP_cons, Nat.add_comm]
  cases p row <;> rfl

/-- A generator that has ended has counted all of its rows. -/
theorem countedRows_ok {n : Counters} {rows : List Row} {ending : Except Exc Unit}
    (h : (countedRows n rows ending).1.ending = .ok ()) : ending = .ok () ∧
      (countedRows n rows ending).1.rows = rows ∧
      (countedRows n rows ending).2.invalid = n.invalid + rows.countP isInvalid ∧
      (countedRows n rows ending).2.smokeFailures = n.smokeFailures + rows.countP isFailure := by
  induction rows generalizing n with
  | nil => exact ⟨h, rfl, rfl, rfl⟩
  | cons row rows ih =>
    rw [countedRows] at h ⊢
    cases hcount : countRow n row with
    | error e =>
      simp only [hcount] at h
      cases h
    | ok n' =>
      simp only [hcount] at h ⊢
      obtain ⟨hending, hrows, hinvalid, hfailures⟩ := ih h
      obtain ⟨i, hi, hcount⟩ := bind_ok.mp hcount
      obtain ⟨f, hf, hcount⟩ := bind_ok.mp hcount
      cases hcount
      refine ⟨hending, congrArg (row :: ·) hrows, ?_, ?_⟩
      · rw [hinvalid, countP_cons_toNat, countInvalid_ok hi, Nat.add_assoc]
      · rw [hfailures, countP_cons_toNat, countFailure_ok hf, Nat.add_assoc]

/-! ## An analysis that succeeds -/

/-- What is analysed has been validated, all of it, and counted. -/
theorem analyze_counted {lib : Libraries} {arith : Arithmetic} {order : SetOrder} {m : Manifest}
    {digest : Text} {raw : Bytes} {result : Analysis}
    (h : (observationsStream lib m digest raw).counted.1.analyze arith order = .ok result) :
    ∃ rows, observations lib m digest raw = .ok rows ∧
      validatedRows (rows.map .dict) = .ok rows ∧
      analyze arith order (.iterator (rows.map .dict)) = .ok result ∧
      (observationsStream lib m digest raw).counted.2 =
        ⟨rows.countP isInvalid, rows.countP isFailure⟩ := by
  obtain ⟨checked, -, h⟩ := bind_ok.mp h
  obtain ⟨hending, hanalyze⟩ := seq_ok.mp h
  obtain ⟨hend, hrows, hinvalid, hfailures⟩ := countedRows_ok hending
  rw [show (observationsStream lib m digest raw).counted.1.rows = _ from hrows] at hanalyze
  refine ⟨(observationsStream lib m digest raw).rows, ?_, ?_, hanalyze, ?_⟩
  · rw [← list_observationsStream, Generator.list_ok]
    exact ⟨hend, rfl⟩
  · obtain ⟨validated, hvalidated, -⟩ := bind_ok.mp hanalyze
    have hdicts := (validatedRows_ok.mp hvalidated).1
    obtain rfl := List.map_injective_iff.mpr (fun _ _ => Value.dict.inj) hdicts
    exact hvalidated
  · rw [Nat.zero_add] at hinvalid hfailures
    rw [Generator.counted, ← hinvalid, ← hfailures]

theorem getItem_of_outcome {row : Row} (h : Passes row) {key : Str} (hkey : key ∈ OUTCOMES) :
    getItem row key = .ok (item row key) := by
  have hbool := h.outcome hkey
  rw [item] at hbool ⊢
  rw [getItem]
  cases hlookup : Dict.lookup key row with
  | none =>
    rw [hlookup] at hbool
    cases hbool
  | some v => rfl

theorem countFailure_of_passes {row : Row} (h : Passes row) :
    countFailure row = .ok (isFailure row).toNat := by
  have hvalid := getItem_of_outcome h (show ("valid_response" : Str) ∈ OUTCOMES by decide)
  rw [countFailure, hvalid]
  rfl

theorem countInvalid_of_passes {row : Row} (h : Passes row) :
    countInvalid row = .ok (isInvalid row).toNat := by
  have hsuccess := getItem_of_outcome h (show ("success" : Str) ∈ OUTCOMES by decide)
  have hvalid := getItem_of_outcome h (show ("valid_response" : Str) ∈ OUTCOMES by decide)
  have hbool := h.outcome (show ("success" : Str) ∈ OUTCOMES by decide)
  rw [countInvalid, hsuccess, isInvalid, flag, flag]
  cases hitem : item row "success" with
  | bool b =>
    cases b with
    | false => rfl
    | true =>
      simp only [bind, Except.bind, hvalid]
      rfl
  | _ =>
    rw [hitem] at hbool
    cases hbool

/-- A row that passes is counted. -/
theorem countRow_of_passes {row : Row} (h : Passes row) (n : Counters) :
    countRow n row =
      .ok ⟨n.invalid + (isInvalid row).toNat, n.smokeFailures + (isFailure row).toNat⟩ := by
  rw [countRow, countInvalid_of_passes h, countFailure_of_passes h]
  rfl

theorem countedRows_of_passes {rows : List Row} (h : ∀ row ∈ rows, Passes row) (n : Counters)
    (ending : Except Exc Unit) : (countedRows n rows ending).1 = ⟨rows, ending⟩ := by
  induction rows generalizing n with
  | nil => rfl
  | cons row rows ih =>
    have hcount := countRow_of_passes (h row List.mem_cons_self) n
    simp only [countedRows, hcount, ih fun r hr => h r (List.mem_cons_of_mem row hr)]
    rfl

/-- Rows that have been observed and validated are analysed by the generator as well. -/
theorem counted_analyze {lib : Libraries} {arith : Arithmetic} {order : SetOrder} {m : Manifest}
    {digest : Text} {raw : Bytes} {rows : List Row}
    (hobserved : observations lib m digest raw = .ok rows)
    (hvalidated : validatedRows (rows.map .dict) = .ok rows) :
    (observationsStream lib m digest raw).counted.1.analyze arith order =
      analyze arith order (.iterator (rows.map .dict)) := by
  rw [← list_observationsStream, Generator.list_ok] at hobserved
  obtain ⟨hending, rfl⟩ := hobserved
  obtain ⟨-, -, hpass, -⟩ := validatedRows_ok.mp hvalidated
  obtain ⟨checked, hchecked, -⟩ := bind_ok.mp hvalidated
  rw [Generator.counted, countedRows_of_passes hpass, hending, Generator.analyze, hchecked]
  rfl

end Study
end AdaptiveGateway
