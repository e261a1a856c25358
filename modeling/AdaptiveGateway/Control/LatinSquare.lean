/-
Turns in a cycle.

A list is rotated by one place from turn to turn.  Then any `l.length` turns in a row,
whichever turn is the first of them, form a Latin square: each element stands in each place
in just one of the turns.
-/
import Mathlib.Data.List.Rotate
import Mathlib.Data.Nat.ModEq

namespace Control
namespace LatinSquare

/-- In `k` turns in a row a counter that wraps around at `k` shows each of its values once. -/
theorem existsUnique_mod {k i : ℕ} (hi : i < k) (p first : ℕ) :
    ∃! t, first ≤ t ∧ t < first + k ∧ (p + t) % k = i := by
  have hk : 0 < k := Nat.zero_lt_of_lt hi
  have hc : (p + first) % k < k := Nat.mod_lt _ hk
  have hsum : (p + first) % k + (i + k - (p + first) % k) = i + k := by omega
  refine ⟨first + (i + k - (p + first) % k) % k, ⟨Nat.le_add_right _ _, ?_, ?_⟩,
    fun t ⟨hle, hlt, hvalue⟩ => ?_⟩
  · exact Nat.add_lt_add_left (Nat.mod_lt _ hk) _
  · rw [← Nat.add_assoc, Nat.add_mod_mod, ← Nat.mod_add_mod, hsum, Nat.add_mod_right,
      Nat.mod_eq_of_lt hi]
  · -- the distance from the first turn is determined modulo `k`, and is less than `k`
    obtain ⟨d, rfl⟩ := Nat.exists_eq_add_of_le hle
    have hd : (p + first) % k + d ≡ (p + first) % k + (i + k - (p + first) % k) [MOD k] := by
      rw [hsum, Nat.ModEq, Nat.mod_add_mod, Nat.add_assoc, hvalue, Nat.add_mod_right,
        Nat.mod_eq_of_lt hi]
    have hmod := Nat.ModEq.add_left_cancel' _ hd
    rw [Nat.ModEq, Nat.mod_eq_of_lt (Nat.add_lt_add_iff_left.mp hlt)] at hmod
    rw [hmod]

section

variable {α : Type*} {l : List α} {x : α} {p : ℕ}

/-- `x` is in the place `p` of a turn when its own place is `p` further on by the turn. -/
theorem getElem?_rotate_eq_some_iff (hl : l.Nodup) (hp : p < l.length) {i : ℕ} (hi : i < l.length)
    (t : ℕ) : (l.rotate t)[p]? = some l[i] ↔ (p + t) % l.length = i := by
  have hlt : (p + t) % l.length < l.length := Nat.mod_lt _ (Nat.zero_lt_of_lt hp)
  rw [List.getElem?_rotate hp, ← List.getElem?_eq_getElem hi, List.getElem?_inj hlt hl]

/-- Whatever turn comes `first`, in the next `l.length` turns each element has each place once. -/
theorem existsUnique_rotate (hl : l.Nodup) (hx : x ∈ l) (hp : p < l.length) (first : ℕ) :
    ∃! t, first ≤ t ∧ t < first + l.length ∧ (l.rotate t)[p]? = some x := by
  obtain ⟨i, hi, rfl⟩ := List.mem_iff_getElem.mp hx
  simp only [getElem?_rotate_eq_some_iff hl hp hi]
  exact existsUnique_mod hi p first

end

end LatinSquare
end Control
