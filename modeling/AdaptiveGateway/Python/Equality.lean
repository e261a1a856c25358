/-
Equality and order of values.

Numbers are equal if they stand for the same number, so `1`, `1.0` and `True` are, and a
NaN equals nothing.  Dictionaries are equal whatever the order of their items is.
-/
import AdaptiveGateway.Python.Value
import Mathlib.Data.List.Forall2
import Mathlib.Data.List.Perm.Subperm

namespace Python

open Codec Numeric

namespace Value

/-- The number that a boolean, an integer or a finite float stands for. -/
def rat : Value → Option ℚ
  | .bool b => some (if b then 1 else 0)
  | .int n => some n
  | .float (.fin q _ _) => some q
  | .negZero => some 0
  | _ => none

def eqScalar (v w : Value) : Bool :=
  match rat v, rat w with
  | some p, some q => decide (p = q)
  | none, none => decide (v = w) && decide (v ≠ .float .nan)
  | _, _ => false

mutual
/-- `v == w` -/
def eq : Value → Value → Bool
  | .list xs, w =>
    match w with
    | .list ys => eqElems xs ys
    | _ => false
  | .dict ms, w =>
    match w with
    | .dict ns => decide (ms.length = ns.length) && eqMembers ms ns
    | _ => false
  | v, w => eqScalar v w

def eqElems : List Value → List Value → Bool
  | [], [] => true
  | x :: xs, y :: ys => eq x y && eqElems xs ys
  | _, _ => false

def eqMembers : List (Str × Value) → List (Str × Value) → Bool
  | [], _ => true
  | m :: ms, ns =>
    (match Dict.lookup m.1 ns with
      | some w => eq m.2 w
      | none => false) && eqMembers ms ns
end

/-- What can be a member of a set. -/
def hashable : Value → Bool
  | .list _ | .dict _ => false
  | _ => true

/-- `isinstance(v, bool)` -/
def isBool : Value → Bool
  | .bool _ => true
  | _ => false

/-- `isinstance(v, int)`, of which the booleans are a part. -/
def isInt : Value → Bool
  | .bool _ | .int _ => true
  | _ => false

/-- `isinstance(v, int | float)` -/
def isNumber : Value → Bool
  | .bool _ | .int _ | .float _ | .negZero => true
  | _ => false

/-- `v < n` of a number. -/
def less (v : Value) (n : ℤ) : Bool :=
  match v with
  | .float (.inf negative) => negative
  | v =>
    match rat v with
    | some q => decide (q < n)
    | none => false

/-- `v > n` of a number. -/
def more (v : Value) (n : ℤ) : Bool :=
  match v with
  | .float (.inf negative) => !negative
  | v =>
    match rat v with
    | some q => decide ((n : ℚ) < q)
    | none => false

theorem eq_str {v : Value} {s : Str} : eq v (.str s) = true ↔ v = .str s := by
  cases v with
  | float x => cases x <;> simp [eq, eqScalar, rat]
  | _ => simp [eq, eqScalar, rat]

theorem eq_int {v : Value} {n : ℤ} : eq v (.int n) = true ↔ rat v = some (n : ℚ) := by
  cases v with
  | float x => cases x <;> simp [eq, eqScalar, rat]
  | _ => simp [eq, eqScalar, rat]

/-- Among the integers, a number is equal to itself alone. -/
theorem int_eq_int {m n : ℤ} : eq (.int m) (.int n) = true ↔ m = n := by
  rw [eq_int, rat, Option.some.injEq, Int.cast_inj]

theorem eq_bool {a b : Bool} : eq (.bool a) (.bool b) = true ↔ a = b := by
  cases a <;> cases b <;> simp [eq, eqScalar, rat]

theorem less_int (m n : ℤ) : less (.int m) n = decide (m < n) := by
  simp [less, rat]

theorem more_int (m n : ℤ) : more (.int m) n = decide (n < m) := by
  simp [more, rat]

/-! ## Lists and dictionaries -/

theorem eqElems_iff {xs ys : List Value} :
    eqElems xs ys = true ↔ List.Forall₂ (fun x y => eq x y = true) xs ys := by
  induction xs generalizing ys with
  | nil => cases ys <;> simp [eqElems]
  | cons x xs ih => cases ys <;> simp [eqElems, ih]

theorem eqMembers_iff {ms ns : List (Str × Value)} : eqMembers ms ns = true ↔
    ∀ m ∈ ms, ∃ w, Dict.lookup m.1 ns = some w ∧ eq m.2 w = true := by
  induction ms with
  | nil => simp [eqMembers]
  | cons m ms ih =>
    rw [eqMembers, Bool.and_eq_true, ih, List.forall_mem_cons]
    cases Dict.lookup m.1 ns <;> simp

theorem keys_subset {P : Str × Value → Value → Prop} {ms ns : List (Str × Value)}
    (h : ∀ m ∈ ms, ∃ w, Dict.lookup m.1 ns = some w ∧ P m w) :
    ms.map Prod.fst ⊆ ns.map Prod.fst := by
  intro key hkey
  obtain ⟨m, hm, rfl⟩ := List.mem_map.mp hkey
  obtain ⟨w, hw, -⟩ := h m hm
  exact List.mem_map.mpr ⟨(m.1, w), Dict.mem_of_lookup hw, rfl⟩

/-- Two dictionaries are equal if they have the same keys, with equal values. -/
theorem dict_eq_dict {ms ns : List (Str × Value)} (hms : (ms.map Prod.fst).Nodup)
    (hns : (ns.map Prod.fst).Nodup) : eq (.dict ms) (.dict ns) = true ↔
      ms.map Prod.fst ⊆ ns.map Prod.fst ∧
        ∀ n ∈ ns, ∃ w, Dict.lookup n.1 ms = some w ∧ eq w n.2 = true := by
  have hms' : ∀ {m}, m ∈ ms ↔ Dict.lookup m.1 ms = some m.2 :=
    Dict.mem_items_iff (d := ⟨ms, hms⟩)
  have hns' : ∀ {n}, n ∈ ns ↔ Dict.lookup n.1 ns = some n.2 :=
    Dict.mem_items_iff (d := ⟨ns, hns⟩)
  rw [eq, Bool.and_eq_true, decide_eq_true_eq, eqMembers_iff]
  constructor
  · intro ⟨hlen, h⟩
    have hsub := keys_subset h
    -- as many keys, all of them among those of the other, are the keys of the other
    have hperm := (hms.subperm hsub).perm_of_length_le (by simp [hlen])
    refine ⟨hsub, fun n hn => ?_⟩
    obtain ⟨m, hm, hkey⟩ := List.mem_map.mp (hperm.mem_iff.mpr (List.mem_map_of_mem hn))
    obtain ⟨w, hw, heq⟩ := h m hm
    rw [hkey, hns'.mp hn, Option.some.injEq] at hw
    exact ⟨m.2, hkey ▸ hms'.mp hm, hw ▸ heq⟩
  · intro ⟨hkeys, h⟩
    have hlen := (hms.subperm hkeys).length_le.antisymm
      (hns.subperm (keys_subset h)).length_le
    rw [List.length_map, List.length_map] at hlen
    refine ⟨hlen, fun m hm => ?_⟩
    obtain ⟨n, hn, hkey⟩ := List.mem_map.mp (hkeys (List.mem_map_of_mem hm))
    obtain ⟨w, hw, heq⟩ := h n hn
    rw [hkey, hms'.mp hm, Option.some.injEq] at hw
    exact ⟨n.2, hkey ▸ hns'.mp hn, hw ▸ heq⟩

theorem eq_dict {v : Value} {ns : List (Str × Value)} (hv : v.Keyed)
    (hns : (ns.map Prod.fst).Nodup) : eq v (.dict ns) = true ↔
      ∃ ms, v = .dict ms ∧ ms.map Prod.fst ⊆ ns.map Prod.fst ∧
        ∀ n ∈ ns, ∃ w, Dict.lookup n.1 ms = some w ∧ eq w n.2 = true := by
  cases v with
  | dict ms => simp [dict_eq_dict hv.1 hns]
  | float x => cases x <;> simp [eq, eqScalar, rat]
  | _ => simp [eq, eqScalar, rat]

/-! ## Members -/

theorem exists_eq_str {o : Option Value} {s : Str} :
    (∃ v, o = some v ∧ v.eq (.str s) = true) ↔ o = some (.str s) := by
  simp only [eq_str, exists_eq_right]

/-- The dictionary at a key equals another one. -/
theorem exists_eq_dict {key : Str} {ms ns : List (Str × Value)} (hms : Keyed (.dict ms))
    (hns : (ns.map Prod.fst).Nodup) :
    (∃ v, Dict.lookup key ms = some v ∧ v.eq (.dict ns) = true) ↔
      ∃ inner, Dict.lookup key ms = some (.dict inner) ∧ inner.map Prod.fst ⊆ ns.map Prod.fst ∧
        ∀ n ∈ ns, ∃ w, Dict.lookup n.1 inner = some w ∧ w.eq n.2 = true := by
  have hkeyed : ∀ {v}, Dict.lookup key ms = some v → Keyed v := fun hv =>
    keyedMembers_iff.mp hms.2 _ (Dict.mem_of_lookup hv)
  constructor
  · intro ⟨v, hv, heq⟩
    obtain ⟨inner, rfl, hinner⟩ := (eq_dict (hkeyed hv) hns).mp heq
    exact ⟨inner, hv, hinner⟩
  · intro ⟨inner, hv, hinner⟩
    exact ⟨_, hv, (eq_dict (hkeyed hv) hns).mpr ⟨inner, rfl, hinner⟩⟩

/-- A number that equals an index is the index, if it is an integer. -/
theorem exists_eq_int {o : Option Value} {m : ℤ} :
    (∃ v, o = some v ∧ v.eq (.int m) = true) ∧ (∃ n, o = some (.int n)) ↔ o = some (.int m) := by
  constructor
  · intro ⟨⟨v, hv, heq⟩, n, hn⟩
    obtain rfl : v = .int n := Option.some.inj (hv.symm.trans hn)
    rw [hn, int_eq_int.mp heq]
  · intro h
    exact ⟨⟨_, h, int_eq_int.mpr rfl⟩, m, h⟩

end Value

end Python
