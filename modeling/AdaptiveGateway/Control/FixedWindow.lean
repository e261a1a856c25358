/-
Calls that are counted in windows.

A window is opened by a call and lasts `W`; the first call at or after its end opens
the next one.  So windows follow the calls and not the clock, and two of them may lie
next to each other with all their permitted calls at the border.  If each window
permits its first `limit` calls, then an interval no longer than `W` meets at most two
windows, and has at most `2 * limit` permitted calls in it.
-/
import Mathlib.Data.List.Basic
import Mathlib.Data.List.Induction

namespace Control
namespace FixedWindow

variable {W limit a : Nat}

/-- The calls of one window: the first opens it, and the others come while it lasts. -/
def Window (W : Nat) (w : List Nat) : Prop :=
  ∃ s rest, w = s :: rest ∧ ∀ t ∈ w, s ≤ t ∧ t < s + W

/-- Whatever belongs to a later window comes after the end of an earlier one. -/
def Apart (W : Nat) (v w : List Nat) : Prop := ∀ s ∈ v.head?, ∀ t ∈ w, s + W ≤ t

/-- A sequence of calls, cut into its windows. -/
structure Windows (W : Nat) (ws : List (List Nat)) : Prop where
  window : ∀ w ∈ ws, Window W w
  apart : ws.Pairwise (Apart W)

/-- The calls of a window, with the first `limit` of them marked as permitted. -/
def marked (limit : Nat) (w : List Nat) : List (Nat × Bool) :=
  w.zipIdx.map fun p => (p.1, decide (p.2 < limit))

theorem marked_append (w : List Nat) (t : Nat) :
    marked limit (w ++ [t]) = marked limit w ++ [(t, decide (w.length < limit))] := by
  simp [marked, List.zipIdx_append]

/-! ## Growing -/

theorem windows_nil : Windows W [] :=
  ⟨fun _ h => absurd h List.not_mem_nil, List.Pairwise.nil⟩

/-- A call while the last window lasts belongs to it. -/
theorem Windows.extend {ws : List (List Nat)} {w : List Nat} {s t : Nat}
    (h : Windows W (ws ++ [w])) (hs : w.head? = some s) (hst : s ≤ t) (ht : t < s + W) :
    Windows W (ws ++ [w ++ [t]]) := by
  obtain ⟨hold, hlast⟩ : (∀ v ∈ ws, Window W v) ∧ Window W w :=
    ⟨fun v hv => h.window v (List.mem_append_left _ hv), h.window w (by simp)⟩
  obtain ⟨s', rest, rfl, hw⟩ := hlast
  obtain rfl : s' = s := by simpa using hs
  have hpair := List.pairwise_append.mp h.apart
  refine ⟨?_, List.pairwise_append.mpr ⟨hpair.1, List.pairwise_singleton _ _, ?_⟩⟩
  · intro v hv
    rcases List.mem_append.mp hv with hv | hv
    · exact hold v hv
    · rw [List.mem_singleton.mp hv]
      refine ⟨s', rest ++ [t], rfl, fun x hx => ?_⟩
      rcases List.mem_append.mp hx with hx | hx
      · exact hw x hx
      · rw [List.mem_singleton.mp hx]
        exact ⟨hst, ht⟩
  · intro v hv u hu
    rw [List.mem_singleton.mp hu]
    intro r hr x hx
    have hapart : Apart W v (s' :: rest) := hpair.2.2 v hv _ (by simp)
    rcases List.mem_append.mp hx with hx | hx
    · exact hapart r hr x hx
    · have hopen : r + W ≤ s' := hapart r hr s' (by simp)
      rw [List.mem_singleton.mp hx]
      omega

/-- A call after the end of every window opens a new one. -/
theorem Windows.open_ {ws : List (List Nat)} {t : Nat} (h : Windows W ws) (hW : 0 < W)
    (hend : ∀ w ∈ ws, ∀ s ∈ w.head?, s + W ≤ t) : Windows W (ws ++ [[t]]) := by
  refine ⟨?_, List.pairwise_append.mpr ⟨h.apart, List.pairwise_singleton _ _, ?_⟩⟩
  · intro w hw
    rcases List.mem_append.mp hw with hw | hw
    · exact h.window w hw
    · rw [List.mem_singleton.mp hw]
      refine ⟨t, [], rfl, fun x hx => ?_⟩
      rw [List.mem_singleton.mp hx]
      omega
  · intro v hv u hu s hs x hx
    rw [List.mem_singleton.mp hu] at hx
    rw [List.mem_singleton.mp hx]
    exact hend v hv s hs

/-- The windows before the last one have ended when the last one is opened. -/
theorem Windows.ended {ws : List (List Nat)} {w : List Nat} {s : Nat}
    (h : Windows W (ws ++ [w])) (hs : w.head? = some s) :
    ∀ v ∈ ws, ∀ r ∈ v.head?, r + W ≤ s := by
  intro v hv r hr
  have hapart : Apart W v w := (List.pairwise_append.mp h.apart).2.2 v hv w (by simp)
  exact hapart r hr s (List.mem_of_mem_head? hs)

/-! ## Permitted calls in an interval -/

/-- The permitted calls from `a` to `a + W`. -/
def within (W a : Nat) (ms : List (Nat × Bool)) : Nat :=
  (ms.filter fun m => m.2 && decide (a ≤ m.1 ∧ m.1 ≤ a + W)).length

theorem within_append (ms ns : List (Nat × Bool)) :
    within W a (ms ++ ns) = within W a ms + within W a ns := by
  simp [within, List.filter_append]

/-- A window permits no more than its limit. -/
theorem within_marked_le (w : List Nat) : within W a (marked limit w) ≤ limit := by
  have hpermitted : ∀ w : List Nat, ((marked limit w).filter Prod.snd).length ≤ limit ∧
      ((marked limit w).filter Prod.snd).length ≤ w.length := by
    intro w
    induction w using List.reverseRecOn with
    | nil => exact ⟨Nat.zero_le _, Nat.le_refl _⟩
    | append_singleton w t ih =>
      rw [marked_append, List.filter_append, List.length_append, List.length_append]
      by_cases hlt : w.length < limit
      · simp only [hlt, decide_true, List.filter_cons_of_pos, List.filter_nil,
          List.length_singleton]
        omega
      · simp only [hlt, decide_false, Bool.false_eq_true, not_false_eq_true,
          List.filter_cons_of_neg, List.filter_nil, List.length_nil, List.length_singleton]
        omega
  have hsub : within W a (marked limit w) ≤ ((marked limit w).filter Prod.snd).length := by
    apply List.Sublist.length_le
    apply List.monotone_filter_right
    intro m hm
    exact (Bool.and_eq_true_iff.mp hm).1
  exact Nat.le_trans hsub (hpermitted w).1

theorem within_eq_zero {w : List Nat} (h : ∀ t ∈ w, ¬(a ≤ t ∧ t ≤ a + W)) :
    within W a (marked limit w) = 0 := by
  rw [within, List.length_eq_zero_iff, List.filter_eq_nil_iff]
  intro m hm
  obtain ⟨p, hp, rfl⟩ := List.mem_map.mp hm
  have ht := h p.1 (List.fst_mem_of_mem_zipIdx hp)
  simp [ht]

/-- No interval as long as a window meets three of them. -/
theorem within_flatMap_le {ws : List (List Nat)} (h : Windows W ws) :
    within W a (ws.flatMap (marked limit)) ≤ 2 * limit := by
  induction ws with
  | nil => exact Nat.zero_le _
  | cons u ws ih =>
    obtain ⟨hapart, hrest⟩ := List.pairwise_cons.mp h.apart
    have hws : Windows W ws := ⟨fun w hw => h.window w (List.mem_cons_of_mem u hw), hrest⟩
    rw [List.flatMap_cons, within_append]
    by_cases hhit : ∃ t ∈ u, a ≤ t ∧ t ≤ a + W
    · -- The window `v` opens after the call `t`, so what follows `v` is out of reach.
      obtain ⟨t, ht, hat, -⟩ := hhit
      obtain ⟨s, rest, rfl, hu⟩ := h.window u List.mem_cons_self
      have hout : ∀ v vs, ws = v :: vs → within W a (vs.flatMap (marked limit)) = 0 := by
        intro v vs hv
        obtain ⟨r, tail, rfl, hr⟩ := hws.window v (hv ▸ List.mem_cons_self)
        rw [within, List.length_eq_zero_iff, List.filter_eq_nil_iff]
        intro m hm
        obtain ⟨w, hw, hmw⟩ := List.mem_flatMap.mp hm
        obtain ⟨p, hp, rfl⟩ := List.mem_map.mp hmw
        have hopen : s + W ≤ r := hapart (r :: tail) (hv ▸ List.mem_cons_self) s rfl r
          List.mem_cons_self
        have hpair := hrest
        rw [hv] at hpair
        have hlate : r + W ≤ p.1 := (List.pairwise_cons.mp hpair).1 w hw r rfl p.1
          (List.fst_mem_of_mem_zipIdx hp)
        have hlast := (hu t ht).2
        have hlong : ¬(a ≤ p.1 ∧ p.1 ≤ a + W) := by omega
        simp [hlong]
      have hfirst : within W a (marked limit (s :: rest)) ≤ limit := within_marked_le _
      cases ws with
      | nil =>
        have hnil : within W a (([] : List (List Nat)).flatMap (marked limit)) = 0 := rfl
        omega
      | cons v vs =>
        have hsecond : within W a (marked limit v) ≤ limit := within_marked_le v
        have hzero := hout v vs rfl
        rw [List.flatMap_cons, within_append]
        omega
    · have hzero : within W a (marked limit u) = 0 :=
        within_eq_zero fun t ht hin => hhit ⟨t, ht, hin⟩
      have hle := ih hws
      omega

end FixedWindow
end Control
