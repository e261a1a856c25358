/-
Operations on a value where it stands.

`InPlace op x x'` is a triple with its frame: if a value owns the tree of `x`, then `op` on it
returns, the value owns the tree of `x'` in the same place, and no other node has changed.  The
rules below carry it over sequences, over the items of an array and over one property of an
object.
-/
import AdaptiveGateway.Js.Heap

namespace Js

open Codec Python

/-- Nothing has changed but from `lo` up to `hi`. -/
def Untouched (h h' : Heap) (lo hi : Nat) : Prop := ∀ a, a < lo ∨ hi ≤ a → h'[a]? = h[a]?

section Untouched

variable {h h' h'' : Heap} {lo hi l m : Nat}

theorem Untouched.refl : Untouched h h lo hi := fun _ _ => rfl

theorem Untouched.trans (hfirst : Untouched h h' lo hi) (hnext : Untouched h' h'' lo hi) :
    Untouched h h'' lo hi := fun a ha => (hnext a ha).trans (hfirst a ha)

theorem Untouched.wide (hsame : Untouched h h' l m) (hl : lo ≤ l) (hm : m ≤ hi) :
    Untouched h h' lo hi :=
  fun a ha => hsame a (ha.imp (fun hlo => hlo.trans_le hl) fun hhi => hm.trans hhi)

theorem Untouched.below (hsame : Untouched h h' l m) : Agree h h' lo l :=
  fun a _ ha => hsame a (.inl ha)

theorem Untouched.above (hsame : Untouched h h' l m) : Agree h h' m hi :=
  fun a ha _ => hsame a (.inr ha)

theorem untouched_set {a : Nat} {n : Node} (hlo : lo ≤ a) (hhi : a < hi) :
    Untouched h (h.set a n) lo hi := by
  intro b hb
  rw [List.getElem?_set_ne]
  rintro rfl
  rcases hb with hb | hb
  · exact absurd hlo (Nat.not_le.mpr hb)
  · exact absurd hhi (Nat.not_lt.mpr hb)

end Untouched

/-- An operation that makes `x` into `x'` where it stands. -/
def InPlace (op : Nat → Heap → Val → Option Heap) (x x' : Value) : Prop :=
  ∀ h v lo hi, Owns h x v lo hi → ∃ h', Returns (fun stack => op stack h v) h' ∧
    Owns h' x' v lo hi ∧ Untouched h h' lo hi

section InPlace

variable {op op' : Nat → Heap → Val → Option Heap} {x y z x' : Value} {h : Heap} {lo hi : Nat}

theorem InPlace.skip : InPlace (fun _ h _ => some h) x x :=
  fun h _ _ _ hown => ⟨h, .pure, hown, .refl⟩

theorem InPlace.andThen (hop : InPlace op x y) (hop' : InPlace op' y z) :
    InPlace (fun stack h v => (op stack h v).bind fun h => op' stack h v) x z := by
  intro h v lo hi hown
  obtain ⟨h₁, hret₁, hown₁, hsame₁⟩ := hop h v lo hi hown
  obtain ⟨h₂, hret₂, hown₂, hsame₂⟩ := hop' h₁ v lo hi hown₁
  exact ⟨h₂, hret₁.bind hret₂, hown₂, hsame₁.trans hsame₂⟩

/-- One operation after another. -/
theorem InPlace.foldlM {φ : Type} {op : φ → Nat → Heap → Val → Option Heap}
    {g : φ → Value → Value} {fs : List φ} (hop : ∀ f ∈ fs, ∀ x, InPlace (op f) x (g f x))
    (x : Value) :
    InPlace (fun stack h v => fs.foldlM (fun h f => op f stack h v) h) x
      (fs.foldl (fun x f => g f x) x) := by
  induction fs generalizing x with
  | nil => exact .skip
  | cons f fs ih =>
    have hrest := ih (fun f hf => hop f (List.mem_cons_of_mem _ hf)) (g f x)
    simp only [List.foldlM_cons, List.foldl_cons]
    exact (hop f List.mem_cons_self x).andThen hrest

/-! ## Items -/

/-- The operation on each item. -/
theorem OwnsElems.foldlM {g : Value → Value} {xs : List Value}
    (hop : ∀ x ∈ xs, InPlace op x (g x)) {vs : List Val} (hown : OwnsElems h xs vs lo hi) :
    ∃ h', Returns (fun stack => vs.foldlM (op stack) h) h' ∧ OwnsElems h' (xs.map g) vs lo hi ∧
      Untouched h h' lo hi := by
  induction xs generalizing h vs lo with
  | nil =>
    rw [OwnsElems] at hown
    obtain ⟨hle, rfl⟩ := hown
    exact ⟨h, .pure, ⟨hle, rfl⟩, .refl⟩
  | cons x xs ih =>
    rw [OwnsElems] at hown
    obtain ⟨w, ws, l, m, rfl, hl, hx, hxs⟩ := hown
    obtain ⟨h₁, hret, hx₁, hsame⟩ := hop x List.mem_cons_self h w l m hx
    obtain ⟨h₂, hrets, hxs₂, hsames⟩ :=
      ih (fun x hx => hop x (List.mem_cons_of_mem _ hx)) (hxs.frame hsame.above)
    refine ⟨h₂, ?_, ?_, ?_⟩
    · simp only [List.foldlM_cons]
      exact hret.bind hrets
    · rw [List.map_cons, OwnsElems]
      exact ⟨w, ws, l, m, rfl, hl, hx₁.frame hsames.below, hxs₂⟩
    · exact (hsame.wide hl hxs.le).trans (hsames.wide (hl.trans hx.le) le_rfl)

/-- An array keeps its node while its items change. -/
theorem Owns.forEach {g : Value → Value} {xs : List Value} (hop : ∀ x ∈ xs, InPlace op x (g x))
    {v : Val} (hown : Owns h (.list xs) v lo hi) :
    ∃ a vs h', v = .ref a ∧ h[a]? = some (.array vs) ∧
      Returns (fun stack => vs.foldlM (op stack) h) h' ∧
      Owns h' (.list (xs.map g)) v lo hi ∧ Untouched h h' lo hi := by
  rw [Owns] at hown
  obtain ⟨a, vs, rfl, ha, hnode, hxs⟩ := hown
  obtain ⟨h', hret, hxs', hsame⟩ := hxs.foldlM hop
  refine ⟨a, vs, h', rfl, hnode, hret, ?_, hsame.wide le_rfl ha.le⟩
  rw [Owns]
  exact ⟨a, vs, rfl, ha, (hsame a (.inr le_rfl)).trans hnode, hxs'⟩

/-! ## Properties -/

variable {ms : List (Str × Value)} {ps : List (Str × Val)} {key : Str}

theorem OwnsMembers.mono (hown : OwnsMembers h ms ps lo hi) {lo' : Nat} (hle : lo' ≤ lo) :
    OwnsMembers h ms ps lo' hi := by
  cases ms with
  | nil =>
    rw [OwnsMembers] at hown ⊢
    exact ⟨hle.trans hown.1, hown.2⟩
  | cons n ns =>
    rw [OwnsMembers] at hown ⊢
    obtain ⟨w, ws, l, m, hps, hl, hn, hns⟩ := hown
    exact ⟨w, ws, l, m, hps, hle.trans hl, hn, hns⟩

theorem OwnsMembers.lookup_eq_none (hown : OwnsMembers h ms ps lo hi)
    (hnone : Dict.lookup key ms = none) : Dict.lookup key ps = none := by
  induction ms generalizing ps lo with
  | nil =>
    rw [OwnsMembers] at hown
    rw [hown.2]
    rfl
  | cons n ns ih =>
    rw [OwnsMembers] at hown
    obtain ⟨w, ws, l, m, rfl, hl, hn, hns⟩ := hown
    rw [Dict.lookup] at hnone ⊢
    by_cases hkey : n.1 = key
    · rw [if_pos hkey] at hnone
      cases hnone
    · rw [if_neg hkey] at hnone ⊢
      exact ih hns hnone

/-- The operation on the value of one property. -/
theorem OwnsMembers.member (hown : OwnsMembers h ms ps lo hi)
    (hx : Dict.lookup key ms = some x) (hop : InPlace op x x') :
    ∃ w h', Dict.lookup key ps = some w ∧ Returns (fun stack => op stack h w) h' ∧
      OwnsMembers h' (Dict.assign key x' ms) ps lo hi ∧ Untouched h h' lo hi := by
  induction ms generalizing ps lo with
  | nil => cases hx
  | cons n ns ih =>
    rw [OwnsMembers] at hown
    obtain ⟨w, ws, l, m, rfl, hl, hn, hns⟩ := hown
    rw [Dict.lookup] at hx
    rw [Dict.lookup, Dict.assign]
    by_cases hkey : n.1 = key
    · rw [if_pos hkey] at hx ⊢
      rw [if_pos hkey]
      obtain rfl := Option.some.inj hx
      obtain ⟨h', hret, hn', hsame⟩ := hop h w l m hn
      refine ⟨w, h', rfl, hret, ?_, hsame.wide hl hns.le⟩
      rw [OwnsMembers]
      exact ⟨w, ws, l, m, by rw [hkey], hl, hn', hns.frame hsame.above⟩
    · rw [if_neg hkey] at hx ⊢
      rw [if_neg hkey]
      obtain ⟨w', h', hw', hret, hns', hsame⟩ := ih hns hx
      refine ⟨w', h', hw', hret, ?_, hsame.wide (hl.trans hn.le) le_rfl⟩
      rw [OwnsMembers]
      exact ⟨w, ws, l, m, rfl, hl, hn.frame hsame.below, hns'⟩

theorem OwnsMembers.filter (hown : OwnsMembers h ms ps lo hi) (key : Str) :
    OwnsMembers h (ms.filter fun m => decide (m.1 ≠ key)) (ps.filter fun p => decide (p.1 ≠ key))
      lo hi := by
  induction ms generalizing ps lo with
  | nil =>
    rw [OwnsMembers] at hown
    obtain ⟨hle, rfl⟩ := hown
    exact ⟨hle, rfl⟩
  | cons n ns ih =>
    rw [OwnsMembers] at hown
    obtain ⟨w, ws, l, m, rfl, hl, hn, hns⟩ := hown
    by_cases hkey : n.1 = key
    · rw [List.filter_cons_of_neg (by simp [hkey]), List.filter_cons_of_neg (by simp [hkey])]
      exact (ih hns).mono (hl.trans hn.le)
    · rw [List.filter_cons_of_pos (by simp [hkey]), List.filter_cons_of_pos (by simp [hkey]),
        OwnsMembers]
      exact ⟨w, _, l, m, rfl, hl, hn, ih hns⟩

/-- A property that is not there. -/
theorem Owns.absent {v : Val} (hown : Owns h (.dict ms) v lo hi)
    (hnone : Dict.lookup key ms = none) :
    ∃ a d, v = .ref a ∧ h[a]? = some (.object d) ∧ d.get? key = none := by
  rw [Owns] at hown
  obtain ⟨a, d, hv, -, hnode, hms⟩ := hown
  exact ⟨a, d, hv, hnode, hms.lookup_eq_none hnone⟩

/-- An object keeps its node while the value of a property changes. -/
theorem Owns.member {v : Val} (hown : Owns h (.dict ms) v lo hi)
    (hx : Dict.lookup key ms = some x) (hop : InPlace op x x') :
    ∃ a d w h', v = .ref a ∧ h[a]? = some (.object d) ∧ d.get? key = some w ∧
      Returns (fun stack => op stack h w) h' ∧ Owns h' (.dict (Dict.assign key x' ms)) v lo hi ∧
      Untouched h h' lo hi := by
  rw [Owns] at hown
  obtain ⟨a, d, rfl, ha, hnode, hms⟩ := hown
  obtain ⟨w, h', hw, hret, hms', hsame⟩ := hms.member hx hop
  refine ⟨a, d, w, h', rfl, hnode, hw, hret, ?_, hsame.wide le_rfl ha.le⟩
  rw [Owns]
  exact ⟨a, d, rfl, ha, (hsame a (.inr le_rfl)).trans hnode, hms'⟩

/-- `delete obj[key]` -/
theorem Owns.erase {v : Val} (hown : Owns h (.dict ms) v lo hi)
    (hx : Dict.lookup key ms = some x) :
    ∃ a d w, v = .ref a ∧ h[a]? = some (.object d) ∧ d.get? key = some w ∧
      Owns (h.set a (.object (d.erase key))) (.dict (ms.filter fun m => decide (m.1 ≠ key))) v
        lo hi ∧ Untouched h (h.set a (.object (d.erase key))) lo hi := by
  obtain ⟨a, d, w, -, rfl, hnode, hw, -⟩ := hown.member hx .skip
  refine ⟨a, d, w, rfl, hnode, hw, ?_⟩
  rw [Owns] at hown
  obtain ⟨b, d', hab, hb, hnode', hms⟩ := hown
  obtain rfl := Val.ref.inj hab
  obtain rfl : d = d' := Node.object.inj (Option.some.inj (hnode.symm.trans hnode'))
  have hset : (h.set a (.object (d.erase key)))[a]? = some (.object (d.erase key)) :=
    List.getElem?_set_self (List.getElem?_eq_some_iff.mp hnode).1
  refine ⟨?_, untouched_set hms.le hb⟩
  rw [Owns]
  refine ⟨a, _, rfl, hb, hset, (hms.filter key).frame fun c _ hc => ?_⟩
  exact List.getElem?_set_ne (Nat.ne_of_gt hc)

end InPlace

end Js
