/-
Where stripping and truncation reach.

A field takes out the members at its key path and truncation cuts every array, so what
is left at a location is known from the location alone.
-/
import AdaptiveGateway.Optimizer.Transform
import AdaptiveGateway.Python.Locations

namespace AdaptiveGateway

namespace Optimizer

open Codec Python
open Python.Value

/-! ## What stripping does -/

theorem stripPath_absent {head : Str} {ms : List (Str × Value)} (h : Dict.lookup head ms = none)
    (tail : List Str) : stripPath (head :: tail) ms = ms := by
  cases tail with
  | nil =>
    refine List.filter_eq_self.mpr fun m hm => decide_eq_true fun hkey => ?_
    obtain ⟨v, hv⟩ := Dict.exists_lookup_of_mem hm
    rw [hkey, h] at hv
    cases hv
  | cons next tail => simp only [stripPath, h]

theorem stripPath_member {head : Str} {ms : List (Str × Value)} {v : Value}
    (h : Dict.lookup head ms = some v) {tail : List Str} (htail : tail ≠ []) :
    stripPath (head :: tail) ms = Dict.assign head (onDicts (stripPath tail) v) ms := by
  cases tail with
  | nil => exact absurd rfl htail
  | cons next tail => simp only [stripPath, h]

theorem onDictsElems_eq (g : List (Str × Value) → List (Str × Value)) (xs : List Value) :
    onDictsElems g xs = xs.map (onDicts g) := by
  induction xs with
  | nil => rfl
  | cons x xs ih => rw [onDictsElems, ih, List.map_cons]

mutual
theorem onDicts_id : ∀ v, onDicts id v = v
  | .list xs => by rw [onDicts, onDictsElems_id xs]
  | .dict _ | .null | .bool _ | .int _ | .float _ | .negZero | .str _ => rfl

theorem onDictsElems_id : ∀ xs, onDictsElems id xs = xs
  | [] => rfl
  | x :: xs => by rw [onDictsElems, onDicts_id x, onDictsElems_id xs]
end

mutual
theorem onDicts_onDicts (g g' : List (Str × Value) → List (Str × Value)) :
    ∀ v, onDicts g' (onDicts g v) = onDicts (fun ms => g' (g ms)) v
  | .list xs => by rw [onDicts, onDicts, onDicts, onDictsElems_onDictsElems g g' xs]
  | .dict _ | .null | .bool _ | .int _ | .float _ | .negZero | .str _ => rfl

theorem onDictsElems_onDictsElems (g g' : List (Str × Value) → List (Str × Value)) :
    ∀ xs, onDictsElems g' (onDictsElems g xs) = onDictsElems (fun ms => g' (g ms)) xs
  | [] => rfl
  | x :: xs => by
    rw [onDictsElems, onDictsElems, onDictsElems, onDicts_onDicts g g' x,
      onDictsElems_onDictsElems g g' xs]
end

/-- The fields may be taken out of the whole value one after the other. -/
theorem stripFields_eq_foldl (fields : List Text) (data : Value) :
    stripFields data fields =
      fields.foldl (fun v field => onDicts (stripPath (keys field)) v) data := by
  have hfold : ∀ fields : List Text, ∀ v,
      onDicts (fun ms => fields.foldl (fun ms field => stripPath (keys field) ms) ms) v =
        fields.foldl (fun v field => onDicts (stripPath (keys field)) v) v := by
    intro fields
    induction fields with
    | nil => exact onDicts_id
    | cons field fields ih =>
      intro v
      rw [List.foldl_cons, ← ih, onDicts_onDicts]
      rfl
  rw [stripFields]
  split
  next hnil => rw [hnil, List.foldl_nil]
  next => exact hfold fields data

theorem stripFields_list (fields : List Text) (xs : List Value) :
    stripFields (.list xs) fields = .list (xs.map fun x => stripFields x fields) := by
  simp only [stripFields]
  split
  · rw [List.map_id']
  · rw [onDicts, onDictsElems_eq]

theorem onDicts_without {g : List (Str × Value) → List (Str × Value)} {P : List Str → Bool}
    (hg : ∀ ms, Keyed (.dict ms) → g ms = withoutMembers P ms) :
    ∀ v, Keyed v → onDicts g v = without P v
  | .dict ms, h => by rw [onDicts, without, hg ms h]
  | .list xs, h => by
    have hxs : ∀ x ∈ xs, onDicts g x = without P x := fun x hx =>
      onDicts_without hg x (keyedElems_iff.mp h x hx)
    rw [onDicts, without, onDictsElems_eq, withoutElems_eq, List.map_congr_left hxs]
  | .null, _ | .bool _, _ | .int _, _ | .float _, _ | .negZero, _ | .str _, _ => rfl

theorem withoutMembers_of_ne {head : Str} {tail : List Str} {ms : List (Str × Value)}
    (h : head ∉ ms.map Prod.fst) :
    withoutMembers (fun keys => decide (keys = head :: tail)) ms = ms := by
  induction ms with
  | nil => rfl
  | cons m ms ih =>
    have hm : m.1 ≠ head := fun hm => h (by simp [hm])
    have hms : head ∉ ms.map Prod.fst := fun hms => h (List.mem_cons_of_mem _ hms)
    have hnone : ∀ keys, decide (m.1 :: keys = head :: tail) = false := by simp [hm]
    rw [withoutMembers, if_neg (by rw [hnone]; exact Bool.false_ne_true), ih hms,
      without_nothing fun key keys => hnone _]

theorem withoutMembers_singleton (head : Str) (ms : List (Str × Value)) :
    withoutMembers (fun keys => decide (keys = [head])) ms =
      ms.filter fun m => decide (m.1 ≠ head) := by
  induction ms with
  | nil => rfl
  | cons m ms ih =>
    by_cases hm : m.1 = head
    · rw [withoutMembers, if_pos (by simp [hm]), List.filter_cons_of_neg (by simp [hm]), ih]
    · have hnone : ∀ keys, decide (m.1 :: keys = [head]) = false := by simp [hm]
      rw [withoutMembers, if_neg (by simp [hm]), List.filter_cons_of_pos (by simp [hm]), ih,
        without_nothing fun key keys => hnone _]

/-- A longer path goes on in the value of its first key. -/
theorem withoutMembers_cons {head : Str} {tail : List Str} (htail : tail ≠ [])
    {ms : List (Str × Value)} (hnodup : (ms.map Prod.fst).Nodup) :
    withoutMembers (fun keys => decide (keys = head :: tail)) ms =
      match Dict.lookup head ms with
      | some v => Dict.assign head (without (fun keys => decide (keys = tail)) v) ms
      | none => ms := by
  induction ms with
  | nil => rfl
  | cons m ms ih =>
    obtain ⟨hnew, hnodup⟩ := List.nodup_cons.mp hnodup
    by_cases hm : m.1 = head
    · subst hm
      rw [withoutMembers, if_neg (by simp [htail.symm]), withoutMembers_of_ne hnew]
      simp only [Dict.lookup, Dict.assign, if_true, List.cons.injEq, true_and]
    · have hnone : ∀ keys, decide (m.1 :: keys = head :: tail) = false := by simp [hm]
      rw [withoutMembers, if_neg (by rw [hnone]; exact Bool.false_ne_true), ih hnodup,
        without_nothing fun key keys => hnone _]
      simp only [Dict.lookup, if_neg hm]
      cases Dict.lookup head ms with
      | none => rfl
      | some v => simp only [Dict.assign, if_neg hm]

/-- One field takes out the member at its path. -/
theorem stripPath_without {path : List Str} (hpath : path ≠ []) {ms : List (Str × Value)}
    (h : Keyed (.dict ms)) :
    stripPath path ms = withoutMembers (fun k => decide (k = path)) ms := by
  induction path generalizing ms with
  | nil => exact absurd rfl hpath
  | cons head tail ih =>
    by_cases htail : tail = []
    · rw [htail]
      exact (withoutMembers_singleton head ms).symm
    · obtain ⟨hnodup, hkeyed⟩ := h
      cases hx : Dict.lookup head ms with
      | none => rw [stripPath_absent hx, withoutMembers_cons htail hnodup, hx]
      | some v =>
        have hv : Keyed v := keyedMembers_iff.mp hkeyed _ (Dict.mem_of_lookup hx)
        rw [stripPath_member hx htail, withoutMembers_cons htail hnodup, hx,
          onDicts_without (fun ns hns => ih htail hns) v hv]

/-- The key paths of a list of fields. -/
def listed (fields : List Text) (path : List Str) : Bool := decide (path ∈ fields.map keys)

theorem foldl_stripPath_without (fields : List Text) {ms : List (Str × Value)}
    (h : Keyed (.dict ms)) :
    fields.foldl (fun ms field => stripPath (keys field) ms) ms =
      withoutMembers (listed fields) ms := by
  induction fields generalizing ms with
  | nil => exact (withoutMembers_nothing (fun _ _ => rfl) ms).symm
  | cons field fields ih =>
    have hfield := stripPath_without (keys_ne_nil field) h
    have hkeyed : Keyed (.dict (stripPath (keys field) ms)) := by
      rw [hfield]
      exact keyed_without _ (.dict ms) h
    have hlisted : listed (field :: fields) =
        fun path => decide (path = keys field) || listed fields path := by
      funext path
      simp [listed]
    rw [List.foldl_cons, ih hkeyed, hfield, withoutMembers_withoutMembers, hlisted]

theorem stripFields_without (fields : List Text) {data : Value} (h : Keyed data) :
    stripFields data fields = without (listed fields) data := by
  by_cases hfields : fields = []
  · rw [stripFields, if_pos hfields, hfields]
    exact (without_nothing (fun _ _ => rfl) data).symm
  · rw [stripFields, if_neg hfields]
    exact onDicts_without (fun ms hms => foldl_stripPath_without fields hms) data h

/-- A prefix of the location that ends in a key has the keys of a configured field. -/
def Configured (fields : List Text) (path : List Step) : Prop :=
  ∃ front name back, path = front ++ .key name :: back ∧
    keysOf (front ++ [.key name]) ∈ fields.map keys

theorem passes_listed (fields : List Text) (path : List Step) :
    passes (listed fields) path = true ↔ Configured fields path := by
  simp only [passes_iff, Configured, listed, decide_eq_true_eq]

/-- The same scalar, an array of the same length, or an object that has the keys of
`gone` no more and the others in their old order. -/
def Surviving (gone : Str → Prop) [DecidablePred gone] : Value → Value → Prop
  | .list xs, .list ys => ys.length = xs.length
  | .dict ms, .dict ns => ns.map Prod.fst = (ms.map Prod.fst).filter fun key => ¬gone key
  | v, w => v = w

theorem surviving_without (P : List Str → Bool) (v : Value) :
    Surviving (fun key => P [key] = true) v (without P v) := by
  cases v with
  | list xs => simp [without, Surviving, withoutElems_eq]
  | dict ms => simp [without, Surviving, keys_withoutMembers]
  | _ => rfl

/-- A list keeps its length unless it is removed. -/
theorem get_list_stripFields (fields : List Text) {data : Value} (h : Keyed data)
    {path : List Step} {xs : List Value} (hxs : get path data = some (.list xs)) :
    get path (stripFields data fields) = none ∨
      ∃ ys, get path (stripFields data fields) = some (.list ys) ∧ ys.length = xs.length := by
  rw [stripFields_without fields h, get_without, hxs]
  split
  · exact .inl rfl
  · refine .inr ⟨_, rfl, ?_⟩
    rw [withoutElems_eq, List.length_map]

/-- Stripping removes the locations of the configured fields and nothing else.  The
fields count as a set, and a second time removes nothing more. -/
theorem stripFields_locations (fields : List Text) {data : Value} (h : Keyed data) :
    (∀ path, (get path (stripFields data fields)).isSome ↔
      (get path data).isSome ∧ ¬Configured fields path) ∧
    (∀ path v w, get path data = some v → get path (stripFields data fields) = some w →
      Surviving (fun key => keysOf path ++ [key] ∈ fields.map keys) v w) ∧
    (∀ others, (∀ field, field ∈ others ↔ field ∈ fields) →
      stripFields data others = stripFields data fields) ∧
    stripFields (stripFields data fields) fields = stripFields data fields := by
  have hstrip := stripFields_without fields h
  refine ⟨fun path => ?_, fun path v w hv hw => ?_, fun others hothers => ?_, ?_⟩
  · rw [hstrip, get_without, ← passes_listed]
    cases passes (listed fields) path <;> simp
  · rw [hstrip, get_without, hv] at hw
    split at hw
    · cases hw
    · cases hw
      have hkept := surviving_without (fun keys => listed fields (keysOf path ++ keys)) v
      simpa only [listed, decide_eq_true_eq] using hkept
  · have hlisted : listed others = listed fields := by
      funext path
      simp [listed, hothers]
    rw [hstrip, stripFields_without others h, hlisted]
  · have hagain : Keyed (stripFields data fields) := by
      rw [hstrip]
      exact keyed_without _ data h
    rw [stripFields_without fields hagain, hstrip, without_without]
    simp only [Bool.or_self]

theorem stripFields_locations_overlapping :
    let data := Value.dict [("a", .list [.dict [("b", .int 1), ("c", .null)]]), ("d", .str [])]
    let fields : List Text := ["a.b", "d.", "a.b.c"]
    stripFields data fields = .dict [("a", .list [.dict [("c", .null)]])] ∧
      stripFields (stripFields data fields) fields = stripFields data fields := by
  refine ⟨rfl, (stripFields_locations _ ?_).2.2.2⟩
  simp [Keyed, KeyedElems, KeyedMembers]
  decide

/-! ## Skeletons -/

theorem truncate_without (P : List Str → Bool) (v : Value) :
    truncate (without P v) = without P (truncate v) := cut_without _ P v

theorem makeSkeleton_makeSkeleton (fields : List Text) {data : Value} (h : Keyed data) :
    makeSkeleton (makeSkeleton data fields) fields = makeSkeleton data fields := by
  have hstrip := stripFields_without fields h
  have hkeyed : Keyed (makeSkeleton data fields) := by
    rw [makeSkeleton, hstrip]
    exact keyed_cut _ _ (keyed_without _ data h)
  calc makeSkeleton (makeSkeleton data fields) fields
      = truncate (without (listed fields) (truncate (without (listed fields) data))) := by
        rw [makeSkeleton, stripFields_without fields hkeyed, makeSkeleton, hstrip]
    _ = truncate (truncate (without (listed fields) data)) := by
        rw [← truncate_without, without_without]
        simp only [Bool.or_self]
    _ = truncate (without (listed fields) data) := cut_cut _ _
    _ = makeSkeleton data fields := by rw [makeSkeleton, hstrip]

/-- Every array of a skeleton is the truncation of at most ten items of the stripped
array, every object has the stripped one's keys, and truncation may come first. -/
theorem makeSkeleton_bounded (fields : List Text) {data : Value} (h : Keyed data) :
    (∀ path ys, get path (makeSkeleton data fields) = some (.list ys) →
      ys.length ≤ SKELETON_MAX_ARRAY_ITEMS ∧ ∃ xs,
        get path (stripFields data fields) = some (.list xs) ∧
          ys = (xs.take SKELETON_MAX_ARRAY_ITEMS).map truncate) ∧
    (∀ path ns, get path (makeSkeleton data fields) = some (.dict ns) →
      ∃ ms, get path (stripFields data fields) = some (.dict ms) ∧
        ns.map Prod.fst = ms.map Prod.fst) ∧
    (∀ path, (get path (makeSkeleton data fields)).isSome ↔
      (get path (stripFields data fields)).isSome ∧ within SKELETON_MAX_ARRAY_ITEMS path) ∧
    truncate (stripFields data fields) = stripFields (truncate data) fields ∧
    makeSkeleton (makeSkeleton data fields) fields = makeSkeleton data fields := by
  have hat : ∀ path w, get path (makeSkeleton data fields) = some w →
      ∃ v, get path (stripFields data fields) = some v ∧ truncate v = w := by
    intro path w hw
    rw [makeSkeleton, truncate, get_cut] at hw
    split at hw
    · exact Option.map_eq_some_iff.mp hw
    · cases hw
  refine ⟨fun path ys hys => ?_, fun path ns hns => ?_, fun path => ?_, ?_,
    makeSkeleton_makeSkeleton fields h⟩
  · obtain ⟨v, hv, htruncate⟩ := hat path _ hys
    cases v with
    | list xs =>
      rw [truncate, cut, cutElems_eq] at htruncate
      cases htruncate
      refine ⟨?_, xs, hv, rfl⟩
      rw [List.length_map]
      exact List.length_take_le _ _
    | _ => cases htruncate
  · obtain ⟨v, hv, htruncate⟩ := hat path _ hns
    cases v with
    | dict ms =>
      cases htruncate
      exact ⟨ms, hv, keys_cutMembers _ ms⟩
    | _ => cases htruncate
  · rw [makeSkeleton, truncate, get_cut]
    cases within SKELETON_MAX_ARRAY_ITEMS path <;> simp
  · have hcut : Keyed (truncate data) := keyed_cut _ data h
    rw [stripFields_without fields h, stripFields_without fields hcut, truncate_without]

theorem makeSkeleton_bounded_nested :
    let data := Value.dict [("a", .list [.list (List.replicate 12 (.dict [("b", .null)]))])]
    makeSkeleton data ["a.b"] = .dict [("a", .list [.list (List.replicate 10 (.dict []))])] ∧
      truncate (stripFields data ["a.b"]) = stripFields (truncate data) ["a.b"] := by
  refine ⟨rfl, (makeSkeleton_bounded _ ?_).2.2.2.1⟩
  simp [Keyed, KeyedElems, KeyedMembers]

end Optimizer

end AdaptiveGateway
