/-
`sort_keys=True`: the dictionaries of a value in the order of their keys.

A value under a key stays under it, and what can be read back before can be read back
afterwards.
-/
import AdaptiveGateway.Python.Loads
import AdaptiveGateway.Python.Grouping

namespace Python

open Codec

namespace Value

mutual
def sortKeys : Value → Value
  | .list xs => .list (sortElems xs)
  | .dict ms => .dict (sortedBy Prod.fst (sortMembers ms))
  | v => v

def sortElems : List Value → List Value
  | [] => []
  | x :: xs => sortKeys x :: sortElems xs

def sortMembers : List (Str × Value) → List (Str × Value)
  | [] => []
  | m :: ms => (m.1, sortKeys m.2) :: sortMembers ms
end

theorem sortMembers_eq (ms : List (Str × Value)) :
    sortMembers ms = ms.map fun m => (m.1, sortKeys m.2) := by
  induction ms with
  | nil => rfl
  | cons m ms ih => rw [sortMembers, ih, List.map_cons]

theorem keys_sortMembers (ms : List (Str × Value)) :
    (sortMembers ms).map Prod.fst = ms.map Prod.fst := by
  rw [sortMembers_eq, List.map_map]
  rfl

/-- The items of a dictionary that is written. -/
def sortItems (ms : List (Str × Value)) : List (Str × Value) := sortedBy Prod.fst (sortMembers ms)

theorem sortItems_perm (ms : List (Str × Value)) : (sortItems ms).Perm (sortMembers ms) :=
  sortedBy_perm _ _

theorem nodup_sortItems {ms : List (Str × Value)} (h : (ms.map Prod.fst).Nodup) :
    ((sortItems ms).map Prod.fst).Nodup := by
  rw [((sortItems_perm ms).map Prod.fst).nodup_iff, keys_sortMembers]
  exact h

theorem lookup_sortMembers (k : Str) (ms : List (Str × Value)) :
    Dict.lookup k (sortMembers ms) = (Dict.lookup k ms).map sortKeys := by
  induction ms with
  | nil => rfl
  | cons m ms ih =>
    rw [sortMembers, Dict.lookup, Dict.lookup, ih]
    split <;> rfl

theorem lookup_sortItems {ms : List (Str × Value)} (h : (ms.map Prod.fst).Nodup) (k : Str) :
    Dict.lookup k (sortItems ms) = (Dict.lookup k ms).map sortKeys := by
  rw [Dict.lookup_perm (sortItems_perm ms) (nodup_sortItems h), lookup_sortMembers]

/-! ## Reading back -/

theorem plainMembers_iff {ms : List (Str × Value)} :
    PlainMembers ms ↔ ∀ m ∈ ms, Scalar m.1 ∧ Plain m.2 := by
  induction ms with
  | nil => simp [PlainMembers]
  | cons m ms ih => rw [PlainMembers, List.forall_mem_cons, ih, and_assoc]

mutual
theorem plain_sortKeys : ∀ v, Plain v → Plain (sortKeys v)
  | .null, h | .bool _, h | .int _, h | .float _, h | .negZero, h | .str _, h => h
  | .list xs, h => plain_sortElems xs h
  | .dict ms, h => by
    refine ⟨nodup_sortItems h.1, plainMembers_iff.mpr fun m hm => ?_⟩
    have hmembers := plainMembers_iff.mp (plain_sortMembers ms h.2)
    exact hmembers m ((sortItems_perm ms).mem_iff.mp hm)

theorem plain_sortElems : ∀ xs, PlainElems xs → PlainElems (sortElems xs)
  | [], h => h
  | x :: xs, h => ⟨plain_sortKeys x h.1, plain_sortElems xs h.2⟩

theorem plain_sortMembers : ∀ ms, PlainMembers ms → PlainMembers (sortMembers ms)
  | [], h => h
  | m :: ms, h => ⟨h.1, plain_sortKeys m.2 h.2.1, plain_sortMembers ms h.2.2⟩
end

end Value

end Python
