/-
A table under concurrent transactions.

This is the part of a database at READ COMMITTED that row locks decide.  Every row
has one committed version.  A transaction takes the lock of a row before it writes
the row, keeps what it has written to itself until it commits, and gives up its
locks when it commits or rolls back.  A lock that another transaction holds is not
granted, so whoever asks for it waits.

`Coherent` says that nobody has written a row without holding its lock, and
`Respects i` is what a transaction `i` may count on while the others move: its own
versions, its locks, and the committed versions of the rows it has locked stay as
they are.
-/
import AdaptiveGateway.Codec.Dict
import Mathlib.Logic.Function.Basic

namespace Concurrent

open Codec

set_option linter.unusedSectionVars false

variable {ι κ ρ : Type}

structure Table (ι κ ρ : Type) where
  /-- The committed versions. -/
  rows : Dict κ ρ := Dict.empty
  owner : κ → Option ι := fun _ => none
  /-- The versions a transaction has written and not committed, newest first. -/
  pending : ι → List (κ × ρ) := fun _ => []

namespace Table

variable [DecidableEq ι] [DecidableEq κ]

def get? (t : Table ι κ ρ) (k : κ) : Option ρ := t.rows.get? k

/-- No other transaction holds the row. -/
def free (t : Table ι κ ρ) (i : ι) (k : κ) : Bool := (t.owner k).all fun j => decide (j = i)

/-- The version of a row that the transaction itself would read. -/
def current (t : Table ι κ ρ) (i : ι) (k : κ) : Option ρ :=
  (Dict.lookup k (t.pending i)).or (t.get? k)

def lock (i : ι) (k : κ) (t : Table ι κ ρ) : Option (Table ι κ ρ) :=
  if t.free i k then some { t with owner := Function.update t.owner k (some i) } else none

/-- Lock a row and write a version of it. -/
def write (i : ι) (k : κ) (v : ρ) (t : Table ι κ ρ) : Option (Table ι κ ρ) :=
  (t.lock i k).map fun u =>
    { u with pending := Function.update u.pending i ((k, v) :: u.pending i) }

def publish (vs : List (κ × ρ)) (d : Dict κ ρ) : Dict κ ρ :=
  vs.foldr (fun e d => d.set e.1 e.2) d

def rollback (i : ι) (t : Table ι κ ρ) : Table ι κ ρ where
  rows := t.rows
  owner k := if t.owner k = some i then none else t.owner k
  pending := Function.update t.pending i []

def commit (i : ι) (t : Table ι κ ρ) : Table ι κ ρ :=
  { t.rollback i with rows := publish (t.pending i) t.rows }

/-! ## What the operations do -/

section Operations

variable {t u : Table ι κ ρ} {i j : ι} {k k' : κ} {v : ρ}

theorem free_iff : t.free i k = true ↔ ∀ j, t.owner k = some j → j = i := by
  cases h : t.owner k <;> simp [free, h]

theorem lock_eq (h : t.lock i k = some u) :
    t.free i k = true ∧ u = { t with owner := Function.update t.owner k (some i) } := by
  unfold lock at h
  split at h
  next hf => exact ⟨hf, (Option.some.inj h).symm⟩
  next => cases h

theorem write_eq (h : t.write i k v = some u) :
    ∃ w, t.lock i k = some w ∧
      u = { w with pending := Function.update w.pending i ((k, v) :: w.pending i) } := by
  obtain ⟨w, hw, rfl⟩ := Option.map_eq_some_iff.mp h
  exact ⟨w, hw, rfl⟩

theorem lock_get? (h : t.lock i k = some u) (k' : κ) : u.get? k' = t.get? k' := by
  rw [(lock_eq h).2]
  rfl

theorem lock_pending (h : t.lock i k = some u) (j : ι) : u.pending j = t.pending j := by
  rw [(lock_eq h).2]

theorem lock_owner (h : t.lock i k = some u) : u.owner k = some i := by
  rw [(lock_eq h).2]
  exact Function.update_self _ _ _

/-- A lock is only ever taken from nobody, or from its holder. -/
theorem lock_owner_of_owner (h : t.lock i k = some u) (hk : t.owner k' = some j) :
    u.owner k' = some j := by
  obtain ⟨hf, rfl⟩ := lock_eq h
  by_cases hkk : k' = k
  · subst hkk
    rw [free_iff.mp hf j hk]
    exact Function.update_self _ _ _
  · exact (Function.update_of_ne hkk _ _).trans hk

theorem write_get? (h : t.write i k v = some u) (k' : κ) : u.get? k' = t.get? k' := by
  obtain ⟨w, hw, rfl⟩ := write_eq h
  exact lock_get? hw k'

theorem write_pending (h : t.write i k v = some u) : u.pending i = (k, v) :: t.pending i := by
  obtain ⟨w, hw, rfl⟩ := write_eq h
  rw [← lock_pending hw i]
  exact Function.update_self _ _ _

theorem write_pending_of_ne (h : t.write i k v = some u) (hij : j ≠ i) :
    u.pending j = t.pending j := by
  obtain ⟨w, hw, rfl⟩ := write_eq h
  exact (Function.update_of_ne hij _ _).trans (lock_pending hw j)

theorem write_owner (h : t.write i k v = some u) : u.owner k = some i := by
  obtain ⟨w, hw, rfl⟩ := write_eq h
  show w.owner k = some i
  exact lock_owner hw

theorem write_owner_of_owner (h : t.write i k v = some u) (hk : t.owner k' = some j) :
    u.owner k' = some j := by
  obtain ⟨w, hw, rfl⟩ := write_eq h
  show w.owner k' = some j
  exact lock_owner_of_owner hw hk

@[simp] theorem rollback_get? (k : κ) : (t.rollback i).get? k = t.get? k := rfl

@[simp] theorem rollback_pending : (t.rollback i).pending i = [] := Function.update_self _ _ _

theorem rollback_pending_of_ne (h : j ≠ i) : (t.rollback i).pending j = t.pending j :=
  Function.update_of_ne h _ _

theorem rollback_owner_of_owner (h : j ≠ i) (hk : t.owner k = some j) :
    (t.rollback i).owner k = some j := by
  have hne : t.owner k ≠ some i := by
    rw [hk]
    exact fun hj => h (Option.some.inj hj)
  exact (if_neg hne).trans hk

theorem get?_publish (vs : List (κ × ρ)) (d : Dict κ ρ) (k : κ) :
    (publish vs d).get? k = (Dict.lookup k vs).or (d.get? k) := by
  induction vs with
  | nil => rfl
  | cons e vs ih =>
    show ((publish vs d).set e.1 e.2).get? k = _
    rw [Dict.get?_set, ih]
    by_cases he : e.1 = k
    · simp [Dict.lookup, he]
    · simp [Dict.lookup, he]

/-- What a transaction read of its own is what everybody reads after its commit. -/
theorem commit_get? (k : κ) : (t.commit i).get? k = t.current i k := get?_publish _ _ k

end Operations

/-! ## Locks protect -/

/-- Whoever has written a row holds its lock. -/
def Coherent (t : Table ι κ ρ) : Prop := ∀ i k v, (k, v) ∈ t.pending i → t.owner k = some i

/-- What the others leave alone of the transaction `i`. -/
structure Respects (i : ι) (t u : Table ι κ ρ) : Prop where
  pending : u.pending i = t.pending i
  owner : ∀ k, t.owner k = some i → u.owner k = some i
  rows : ∀ k, t.owner k = some i → u.get? k = t.get? k

section Coherent

variable {t u w : Table ι κ ρ} {i j : ι} {k : κ} {v : ρ}

theorem Respects.refl (i : ι) (t : Table ι κ ρ) : Respects i t t :=
  ⟨rfl, fun _ h => h, fun _ _ => rfl⟩

theorem Respects.trans (h : Respects i t u) (h' : Respects i u w) : Respects i t w where
  pending := h'.pending.trans h.pending
  owner k hk := h'.owner k (h.owner k hk)
  rows k hk := (h'.rows k (h.owner k hk)).trans (h.rows k hk)

theorem coherent_empty : (({} : Table ι κ ρ)).Coherent := by
  intro i k v h
  cases h

theorem Coherent.lock (ht : t.Coherent) (h : t.lock i k = some u) : u.Coherent := by
  intro j k' v' hv
  rw [lock_pending h] at hv
  exact lock_owner_of_owner h (ht j k' v' hv)

theorem Coherent.write (ht : t.Coherent) (h : t.write i k v = some u) : u.Coherent := by
  intro j k' v' hv
  by_cases hij : j = i
  · subst hij
    rw [write_pending h] at hv
    rcases List.mem_cons.mp hv with hk | hv
    · cases hk
      exact write_owner h
    · exact write_owner_of_owner h (ht j k' v' hv)
  · rw [write_pending_of_ne h hij] at hv
    exact write_owner_of_owner h (ht j k' v' hv)

theorem Coherent.rollback (ht : t.Coherent) : (t.rollback i).Coherent := by
  intro j k v hv
  by_cases hij : j = i
  · subst hij
    rw [rollback_pending] at hv
    cases hv
  · rw [rollback_pending_of_ne hij] at hv
    exact rollback_owner_of_owner hij (ht j k v hv)

theorem Coherent.commit (ht : t.Coherent) : (t.commit i).Coherent := ht.rollback (i := i)

/-- A row that a transaction reads differently from the others is locked by it. -/
theorem Coherent.current_eq (ht : t.Coherent) (hij : j ≠ i) (hk : t.owner k = some j) :
    t.current i k = t.get? k := by
  have hnone : Dict.lookup k (t.pending i) = none := by
    cases hl : Dict.lookup k (t.pending i) with
    | none => rfl
    | some v =>
      have hi : t.owner k = some i := ht i k v (Dict.mem_of_lookup hl)
      rw [hk] at hi
      exact absurd (Option.some.inj hi) hij
  rw [current, hnone, Option.none_or]

theorem respects_lock (h : t.lock i k = some u) (j : ι) : Respects j t u where
  pending := lock_pending h j
  owner _ hk := lock_owner_of_owner h hk
  rows k' _ := lock_get? h k'

theorem respects_write (h : t.write i k v = some u) (hij : j ≠ i) : Respects j t u where
  pending := write_pending_of_ne h hij
  owner _ hk := write_owner_of_owner h hk
  rows k' _ := write_get? h k'

theorem respects_rollback (hij : j ≠ i) : Respects j t (t.rollback i) where
  pending := rollback_pending_of_ne hij
  owner _ hk := rollback_owner_of_owner hij hk
  rows _ _ := rfl

theorem Coherent.respects_commit (ht : t.Coherent) (hij : j ≠ i) : Respects j t (t.commit i) where
  pending := rollback_pending_of_ne hij
  owner _ hk := rollback_owner_of_owner hij hk
  rows k hk := (commit_get? k).trans (ht.current_eq hij hk)

end Coherent

end Table

end Concurrent
