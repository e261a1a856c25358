/-
Sorting by a key, and grouping in a `defaultdict(list)`.

Neither depends on the order of its input beyond the order inside of a group: the sorted
groups of two permutations of a list have the same keys, and the groups of a key are
permutations of each other.
-/
import Mathlib.Data.List.Lex
import Mathlib.Data.List.Induction
import Mathlib.Data.List.Nodup
import Mathlib.Order.Lattice

namespace Python

variable {α κ : Type}

/-! ## Sorting -/

section Sorting

variable [LinearOrder κ]

/-- `sorted(xs, key=...)` -/
def sortedBy (key : α → κ) (xs : List α) : List α := xs.mergeSort fun x y => decide (key x ≤ key y)

theorem sortedBy_perm (key : α → κ) (xs : List α) : (sortedBy key xs).Perm xs :=
  List.mergeSort_perm _ _

theorem sortedBy_pairwise (key : α → κ) (xs : List α) :
    (sortedBy key xs).Pairwise fun x y => key x ≤ key y := by
  have h := @List.pairwise_mergeSort α (fun x y => decide (key x ≤ key y))
    (fun a b c hab hbc => decide_eq_true ((of_decide_eq_true hab).trans (of_decide_eq_true hbc)))
    (fun a b => by simpa using le_total (key a) (key b)) xs
  exact h.imp of_decide_eq_true

/-- A list that is ordered already, with no key twice, is what sorting makes of its
permutations. -/
theorem sortedBy_eq_of_perm {key : α → κ} {xs ys : List α} (hperm : xs.Perm ys)
    (hinj : ∀ x ∈ ys, ∀ y ∈ ys, key x = key y → x = y)
    (hys : ys.Pairwise fun x y => key x ≤ key y) : sortedBy key xs = ys := by
  have hsorted := (sortedBy_perm key xs).trans hperm
  refine hsorted.eq_of_pairwise (fun x y hx hy hxy hyx => ?_) (sortedBy_pairwise key xs) hys
  exact hinj x (hsorted.mem_iff.mp hx) y hy (le_antisymm hxy hyx)

theorem sortedBy_congr {key : α → κ} {xs ys : List α} (hperm : xs.Perm ys)
    (hinj : ∀ x ∈ ys, ∀ y ∈ ys, key x = key y → x = y) : sortedBy key xs = sortedBy key ys := by
  have hys := sortedBy_perm key ys
  refine sortedBy_eq_of_perm (hperm.trans hys.symm) (fun x hx y hy => ?_)
    (sortedBy_pairwise key ys)
  exact hinj x (hys.mem_iff.mp hx) y (hys.mem_iff.mp hy)

/-- The sorted values do not depend on their order. -/
theorem sortedBy_id_congr {xs ys : List κ} (hperm : xs.Perm ys) :
    sortedBy id xs = sortedBy id ys :=
  sortedBy_congr hperm fun _ _ _ _ h => h

/-! ### The place of a value -/

section Place

variable {xs : List κ} {k : Nat}

theorem getElem_mono (h : xs.Pairwise (· ≤ ·)) {i j : Nat} (hj : j < xs.length) (hij : i ≤ j) :
    xs[i] ≤ xs[j] := by
  rcases Nat.lt_or_eq_of_le hij with hlt | rfl
  · exact List.pairwise_iff_getElem.mp h i j _ hj hlt
  · exact le_rfl

/-- In a sorted list more values than its index are no greater than a value. -/
theorem lt_countP_le (h : xs.Pairwise (· ≤ ·)) (hk : k < xs.length) :
    k < xs.countP fun x => decide (x ≤ xs[k]) := by
  have htake : (xs.take (k + 1)).countP (fun x => decide (x ≤ xs[k])) =
      (xs.take (k + 1)).length := by
    rw [List.countP_eq_length]
    intro x hx
    obtain ⟨i, hi, rfl⟩ := List.getElem_of_mem hx
    rw [List.getElem_take]
    rw [List.length_take] at hi
    exact decide_eq_true (getElem_mono h hk (by omega))
  have hlen : (xs.take (k + 1)).length = k + 1 := by
    rw [List.length_take]
    omega
  have hsub : (xs.take (k + 1)).countP (fun x => decide (x ≤ xs[k])) ≤
      xs.countP fun x => decide (x ≤ xs[k]) := (List.take_sublist (k + 1) xs).countP_le
  omega

/-- No more values than its index are less than it. -/
theorem countP_lt_le (h : xs.Pairwise (· ≤ ·)) (hk : k < xs.length) :
    xs.countP (fun x => decide (x < xs[k])) ≤ k := by
  have hdrop : (xs.drop k).countP (fun x => decide (x < xs[k])) = 0 := by
    rw [List.countP_eq_zero]
    intro x hx
    obtain ⟨i, hi, rfl⟩ := List.getElem_of_mem hx
    rw [List.getElem_drop, decide_eq_true_eq, not_lt]
    rw [List.length_drop] at hi
    exact getElem_mono h (by omega) (by omega)
  have hsplit : (xs.take k ++ xs.drop k).countP (fun x => decide (x < xs[k])) =
      (xs.take k).countP (fun x => decide (x < xs[k])) +
        (xs.drop k).countP fun x => decide (x < xs[k]) := List.countP_append ..
  rw [List.take_append_drop, hdrop] at hsplit
  have hle : (xs.take k).countP (fun x => decide (x < xs[k])) ≤ (xs.take k).length :=
    List.countP_le_length
  rw [List.length_take] at hle
  omega

end Place

end Sorting

/-! ## Grouping -/

section Grouping

variable [DecidableEq κ]

/-- `groups[k].append(x)` -/
def push (k : κ) (x : α) : List (κ × List α) → List (κ × List α)
  | [] => [(k, [x])]
  | e :: es => if e.1 = k then (k, e.2 ++ [x]) :: es else e :: push k x es

/-- The items of `groups` when every element has been appended. -/
def groupBy (key : α → κ) (xs : List α) : List (κ × List α) :=
  xs.foldl (fun groups x => push (key x) x groups) []

theorem keys_push (k : κ) (x : α) (groups : List (κ × List α)) :
    (push k x groups).map Prod.fst =
      if k ∈ groups.map Prod.fst then groups.map Prod.fst else groups.map Prod.fst ++ [k] := by
  induction groups with
  | nil => simp [push]
  | cons e es ih =>
    rw [push]
    by_cases he : e.1 = k
    · rw [if_pos he, if_pos (by simp [he])]
      simp [he]
    · rw [if_neg he, List.map_cons, ih, List.map_cons]
      by_cases hmem : k ∈ es.map Prod.fst
      · rw [if_pos hmem, if_pos (List.mem_cons_of_mem _ hmem)]
      · have hnew : k ∉ e.1 :: es.map Prod.fst := fun h =>
          (List.mem_cons.mp h).elim (fun h => he h.symm) hmem
        rw [if_neg hmem, if_neg hnew, List.cons_append]

theorem mem_push {k : κ} {x : α} {groups : List (κ × List α)}
    (hnodup : (groups.map Prod.fst).Nodup) {e : κ × List α} (he : e ∈ push k x groups) :
    e ∈ groups ∧ e.1 ≠ k ∨ e.1 = k ∧ (e.2 = [x] ∧ k ∉ groups.map Prod.fst ∨
      ∃ g, (k, g) ∈ groups ∧ e.2 = g ++ [x]) := by
  induction groups with
  | nil =>
    rw [push, List.mem_singleton] at he
    rw [he]
    exact .inr ⟨rfl, .inl ⟨rfl, by simp⟩⟩
  | cons d ds ih =>
    obtain ⟨hd, hnodup⟩ := List.nodup_cons.mp hnodup
    rw [push] at he
    split at he
    next hk =>
      rcases List.mem_cons.mp he with rfl | he
      · exact .inr ⟨rfl, .inr ⟨d.2, by simp [← hk], rfl⟩⟩
      · refine .inl ⟨List.mem_cons_of_mem d he, fun h => hd ?_⟩
        rw [hk, ← h]
        exact List.mem_map_of_mem he
    next hk =>
      rcases List.mem_cons.mp he with rfl | he
      · exact .inl ⟨List.mem_cons_self, hk⟩
      · rcases ih hnodup he with ⟨he, hne⟩ | ⟨hek, ⟨hx, hnew⟩ | ⟨g, hg, hx⟩⟩
        · exact .inl ⟨List.mem_cons_of_mem d he, hne⟩
        · refine .inr ⟨hek, .inl ⟨hx, ?_⟩⟩
          rw [List.map_cons, List.mem_cons, not_or]
          exact ⟨fun h => hk h.symm, hnew⟩
        · exact .inr ⟨hek, .inr ⟨g, List.mem_cons_of_mem d hg, hx⟩⟩

variable (key : α → κ)

theorem groupBy_append (xs : List α) (x : α) :
    groupBy key (xs ++ [x]) = push (key x) x (groupBy key xs) := by
  rw [groupBy, List.foldl_append]
  rfl

/-- Each key that occurs has one group. -/
theorem keys_groupBy (xs : List α) : ((groupBy key xs).map Prod.fst).Nodup ∧
    ∀ k, k ∈ (groupBy key xs).map Prod.fst ↔ k ∈ xs.map key := by
  induction xs using List.reverseRecOn with
  | nil => exact ⟨List.nodup_nil, fun k => Iff.rfl⟩
  | append_singleton xs x ih =>
    obtain ⟨hnodup, hmem⟩ := ih
    rw [groupBy_append, keys_push]
    split
    next hk =>
      refine ⟨hnodup, fun k => ?_⟩
      rw [hmem, List.map_append, List.mem_append, List.map_singleton, List.mem_singleton]
      exact ⟨.inl, fun h => h.elim id fun h => h ▸ (hmem _).mp hk⟩
    next hk =>
      refine ⟨List.nodup_append.mpr ⟨hnodup, List.nodup_singleton _, ?_⟩, fun k => ?_⟩
      · intro a ha b hb
        rw [List.mem_singleton.mp hb]
        exact fun hab => hk (hab ▸ ha)
      · rw [List.mem_append, List.mem_singleton, hmem, List.map_append, List.mem_append,
          List.map_singleton, List.mem_singleton]

/-- The group of a key has the elements with this key, in their order. -/
theorem group_eq_filter (xs : List α) :
    ∀ e ∈ groupBy key xs, e.2 = xs.filter fun x => decide (key x = e.1) := by
  induction xs using List.reverseRecOn with
  | nil => simp [groupBy]
  | append_singleton xs x ih =>
    intro e he
    obtain ⟨hnodup, hmem⟩ := keys_groupBy key xs
    rw [groupBy_append] at he
    rw [List.filter_append]
    rcases mem_push hnodup he with ⟨he, hne⟩ | ⟨hek, ⟨hx, hnew⟩ | ⟨g, hg, hx⟩⟩
    · rw [ih e he, List.filter_cons_of_neg (by simpa using fun h => hne h.symm), List.filter_nil,
        List.append_nil]
    · have hnone : xs.filter (fun y => decide (key y = e.1)) = [] := by
        rw [List.filter_eq_nil_iff]
        intro y hy hkey
        rw [hek] at hkey
        exact hnew ((hmem _).mpr (List.mem_map.mpr ⟨y, hy, of_decide_eq_true hkey⟩))
      rw [hnone, List.filter_cons_of_pos (by simp [hek]), hx]
      rfl
    · have hold := ih _ hg
      rw [hx, List.filter_cons_of_pos (by simp [hek]), List.filter_nil, hek]
      exact congrArg (· ++ [x]) hold

theorem groupBy_eq (xs : List α) : groupBy key xs =
    ((groupBy key xs).map Prod.fst).map fun k => (k, xs.filter fun x => decide (key x = k)) := by
  rw [List.map_map]
  conv_lhs => rw [← List.map_id (groupBy key xs)]
  exact List.map_congr_left fun e he => Prod.ext rfl (group_eq_filter key xs e he)

end Grouping

section Sorted

variable [LinearOrder κ]

/-- `sorted(groups.items())`, where no two keys are equal. -/
def sortedGroups (key : α → κ) (xs : List α) : List (κ × List α) :=
  sortedBy Prod.fst (groupBy key xs)

theorem nodup_keys_sortedGroups (key : α → κ) (xs : List α) :
    ((sortedGroups key xs).map Prod.fst).Nodup :=
  ((sortedBy_perm Prod.fst _).map Prod.fst).nodup_iff.mpr (keys_groupBy key xs).1

/-- Each element is in the group of its key. -/
theorem exists_mem_sortedGroups (key : α → κ) {xs : List α} {x : α} (hx : x ∈ xs) :
    ∃ group, x ∈ group ∧ (key x, group) ∈ sortedGroups key xs := by
  obtain ⟨e, he, hkey⟩ := List.mem_map.mp
    (((keys_groupBy key xs).2 (key x)).mpr (List.mem_map_of_mem hx))
  refine ⟨e.2, ?_, ?_⟩
  · rw [group_eq_filter key xs e he, hkey]
    exact List.mem_filter.mpr ⟨hx, decide_eq_true rfl⟩
  · rw [← hkey]
    exact (sortedBy_perm Prod.fst _).mem_iff.mpr he

/-- A key has one group. -/
theorem eq_of_mem_sortedGroups {key : α → κ} {xs : List α} {a b : κ × List α}
    (ha : a ∈ sortedGroups key xs) (hb : b ∈ sortedGroups key xs) (h : a.1 = b.1) : a = b := by
  have hmem : ∀ {e}, e ∈ sortedGroups key xs ↔ e ∈ groupBy key xs :=
    (sortedBy_perm Prod.fst (groupBy key xs)).mem_iff
  refine Prod.ext h ?_
  rw [group_eq_filter key xs a (hmem.mp ha), group_eq_filter key xs b (hmem.mp hb), h]

/-- The sorted groups of two permutations. -/
theorem sortedGroups_congr {γ : Type} {key : α → κ} {xs ys : List α} (hperm : xs.Perm ys)
    {f : κ × List α → γ} (hf : ∀ k {g g' : List α}, g.Perm g' → f (k, g) = f (k, g')) :
    (sortedGroups key xs).map f = (sortedGroups key ys).map f := by
  have hform : ∀ zs : List α, sortedGroups key zs =
      (sortedBy id ((groupBy key zs).map Prod.fst)).map fun k =>
        (k, zs.filter fun x => decide (key x = k)) := by
    intro zs
    have hkeys := sortedBy_perm id ((groupBy key zs).map Prod.fst)
    refine sortedBy_eq_of_perm ?_ ?_ ?_
    · conv_lhs => rw [groupBy_eq]
      exact (hkeys.map _).symm
    · intro a ha b hb hab
      obtain ⟨k, -, rfl⟩ := List.mem_map.mp ha
      obtain ⟨l, -, rfl⟩ := List.mem_map.mp hb
      have hkl : k = l := hab
      rw [hkl]
    · exact List.pairwise_map.mpr (sortedBy_pairwise id _)
  have hsame : sortedBy id ((groupBy key xs).map Prod.fst) =
      sortedBy id ((groupBy key ys).map Prod.fst) := by
    refine sortedBy_id_congr ((List.perm_ext_iff_of_nodup (keys_groupBy key xs).1
      (keys_groupBy key ys).1).mpr fun k => ?_)
    rw [(keys_groupBy key xs).2, (keys_groupBy key ys).2]
    exact (hperm.map key).mem_iff
  rw [hform, hform, hsame, List.map_map, List.map_map]
  exact List.map_congr_left fun k _ => hf k (hperm.filter _)

end Sorted

end Python
