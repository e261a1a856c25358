/-
Where a value has what.

A location is a path of keys and indices.  `without P` takes out of a value the
members at the key paths in `P`, whatever the indices on the way are, and leaves
everything else in place.  `cut max` shortens every list to `max` items.  `get` says
what either of them leaves at a location, and neither looks at what the other changes:
a location keeps its keys when a list is cut, and a list its items when members are
taken out.
-/
import AdaptiveGateway.Python.Value

namespace Python

open Codec

inductive Step where
  | key (name : Str)
  | index (i : Nat)
deriving DecidableEq, Repr

/-- The keys of a location, without its indices. -/
def keysOf : List Step → List Str
  | [] => []
  | .key name :: path => name :: keysOf path
  | .index _ :: path => keysOf path

namespace Value

/-- The value at a location. -/
def get : List Step → Value → Option Value
  | [], v => some v
  | .key name :: path, .dict ms => (Dict.lookup name ms).bind (get path)
  | .index i :: path, .list xs => xs[i]?.bind (get path)
  | _ :: _, _ => none

/-! ## Taking members out -/

mutual
/-- What is left of a value when the members at these key paths are taken out. -/
def without (P : List Str → Bool) : Value → Value
  | .list xs => .list (withoutElems P xs)
  | .dict ms => .dict (withoutMembers P ms)
  | v => v

def withoutElems (P : List Str → Bool) : List Value → List Value
  | [] => []
  | x :: xs => without P x :: withoutElems P xs

def withoutMembers (P : List Str → Bool) : List (Str × Value) → List (Str × Value)
  | [] => []
  | m :: ms =>
    if P [m.1] then withoutMembers P ms
    else (m.1, without (fun keys => P (m.1 :: keys)) m.2) :: withoutMembers P ms
end

theorem withoutElems_eq (P : List Str → Bool) (xs : List Value) :
    withoutElems P xs = xs.map (without P) := by
  induction xs with
  | nil => rfl
  | cons x xs ih => rw [withoutElems, ih, List.map_cons]

theorem keys_withoutMembers (P : List Str → Bool) (ms : List (Str × Value)) :
    (withoutMembers P ms).map Prod.fst = (ms.map Prod.fst).filter fun key => !P [key] := by
  induction ms with
  | nil => rfl
  | cons m ms ih =>
    by_cases hm : P [m.1] = true
    · simp [withoutMembers, hm, ih]
    · simp [withoutMembers, hm, ih]

theorem lookup_withoutMembers (P : List Str → Bool) (name : Str) (ms : List (Str × Value)) :
    Dict.lookup name (withoutMembers P ms) = if P [name] then none
      else (Dict.lookup name ms).map (without fun keys => P (name :: keys)) := by
  induction ms with
  | nil => simp [withoutMembers, Dict.lookup]
  | cons m ms ih =>
    by_cases hname : m.1 = name
    · subst hname
      by_cases hm : P [m.1] = true
      · rw [withoutMembers, if_pos hm, ih]
        simp [hm]
      · rw [withoutMembers, if_neg hm, if_neg hm, Dict.lookup, if_pos rfl, Dict.lookup, if_pos rfl]
        rfl
    · rw [Dict.lookup, if_neg hname, ← ih, withoutMembers]
      split
      · rfl
      · rw [Dict.lookup, if_neg hname]

mutual
theorem without_nothing {P : List Str → Bool} (h : ∀ key keys, P (key :: keys) = false) :
    ∀ v, without P v = v
  | .list xs => by rw [without, withoutElems_nothing h xs]
  | .dict ms => by rw [without, withoutMembers_nothing h ms]
  | .null | .bool _ | .int _ | .float _ | .negZero | .str _ => rfl

theorem withoutElems_nothing {P : List Str → Bool} (h : ∀ key keys, P (key :: keys) = false) :
    ∀ xs, withoutElems P xs = xs
  | [] => rfl
  | x :: xs => by rw [withoutElems, without_nothing h x, withoutElems_nothing h xs]

theorem withoutMembers_nothing {P : List Str → Bool} (h : ∀ key keys, P (key :: keys) = false) :
    ∀ ms, withoutMembers P ms = ms
  | [] => rfl
  | m :: ms => by
    rw [withoutMembers, h m.1 [], withoutMembers_nothing h ms,
      without_nothing (fun key keys => h m.1 (key :: keys)) m.2]
    rfl
end

mutual
/-- What is taken out in two goes can be taken out at once. -/
theorem without_without (P Q : List Str → Bool) :
    ∀ v, without Q (without P v) = without (fun keys => P keys || Q keys) v
  | .list xs => by rw [without, without, without, withoutElems_withoutElems P Q xs]
  | .dict ms => by rw [without, without, without, withoutMembers_withoutMembers P Q ms]
  | .null | .bool _ | .int _ | .float _ | .negZero | .str _ => rfl

theorem withoutElems_withoutElems (P Q : List Str → Bool) :
    ∀ xs, withoutElems Q (withoutElems P xs) = withoutElems (fun keys => P keys || Q keys) xs
  | [] => rfl
  | x :: xs => by
    rw [withoutElems, withoutElems, withoutElems, without_without P Q x,
      withoutElems_withoutElems P Q xs]

theorem withoutMembers_withoutMembers (P Q : List Str → Bool) : ∀ ms,
    withoutMembers Q (withoutMembers P ms) = withoutMembers (fun keys => P keys || Q keys) ms
  | [] => rfl
  | m :: ms => by
    have ih := withoutMembers_withoutMembers P Q ms
    cases hP : P [m.1] with
    | true => simp only [withoutMembers, hP, Bool.true_or, if_true, ih]
    | false =>
      cases hQ : Q [m.1] with
      | true => simp [withoutMembers, hP, hQ, ih]
      | false => simp [withoutMembers, hP, hQ, ih, without_without _ _ m.2]
end

mutual
theorem keyed_without (P : List Str → Bool) : ∀ v, Keyed v → Keyed (without P v)
  | .list xs, h => keyed_withoutElems P xs h
  | .dict ms, h => by
    refine ⟨?_, keyed_withoutMembers P ms h.2⟩
    rw [keys_withoutMembers]
    exact h.1.filter _
  | .null, h | .bool _, h | .int _, h | .float _, h | .negZero, h | .str _, h => h

theorem keyed_withoutElems (P : List Str → Bool) :
    ∀ xs, KeyedElems xs → KeyedElems (withoutElems P xs)
  | [], h => h
  | x :: xs, h => ⟨keyed_without P x h.1, keyed_withoutElems P xs h.2⟩

theorem keyed_withoutMembers (P : List Str → Bool) :
    ∀ ms, KeyedMembers ms → KeyedMembers (withoutMembers P ms)
  | [], h => h
  | m :: ms, h => by
    rw [withoutMembers]
    split
    · exact keyed_withoutMembers P ms h.2
    · exact ⟨keyed_without _ m.2 h.1, keyed_withoutMembers P ms h.2⟩
end

/-! ## What is left at a location -/

/-- A member on the way to this location is taken out. -/
def passes (P : List Str → Bool) : List Step → Bool
  | [] => false
  | .key name :: path => P [name] || passes (fun keys => P (name :: keys)) path
  | .index _ :: path => passes P path

theorem passes_iff (P : List Str → Bool) (path : List Step) : passes P path = true ↔
    ∃ front name back, path = front ++ .key name :: back ∧
      P (keysOf (front ++ [.key name])) = true := by
  induction path generalizing P with
  | nil => simp [passes]
  | cons step path ih =>
    cases step with
    | key name =>
      rw [passes, Bool.or_eq_true, ih]
      constructor
      · rintro (h | ⟨front, last, back, rfl, h⟩)
        · exact ⟨[], name, path, rfl, h⟩
        · exact ⟨.key name :: front, last, back, rfl, h⟩
      · rintro ⟨front, last, back, hpath, h⟩
        cases front with
        | nil =>
          cases hpath
          exact .inl h
        | cons step front =>
          cases hpath
          exact .inr ⟨front, last, back, rfl, h⟩
    | index i =>
      rw [passes, ih]
      constructor
      · rintro ⟨front, last, back, rfl, h⟩
        exact ⟨.index i :: front, last, back, rfl, h⟩
      · rintro ⟨front, last, back, hpath, h⟩
        cases front with
        | nil => cases hpath
        | cons step front =>
          cases hpath
          exact ⟨front, last, back, rfl, h⟩

theorem get_without (P : List Str → Bool) (path : List Step) (v : Value) :
    get path (without P v) = if passes P path then none
      else (get path v).map (without fun keys => P (keysOf path ++ keys)) := by
  induction path generalizing P v with
  | nil => rfl
  | cons step path ih =>
    cases step with
    | key name =>
      cases v with
      | dict ms =>
        rw [without, get, lookup_withoutMembers, get, passes]
        cases hname : P [name] with
        | true => rfl
        | false =>
          cases hms : Dict.lookup name ms with
          | none => simp
          | some x => simpa [keysOf] using ih (fun keys => P (name :: keys)) x
      | _ => simp [without, get]
    | index i =>
      cases v with
      | list xs =>
        rw [without, get, withoutElems_eq, List.getElem?_map, get, passes]
        cases hxs : xs[i]? with
        | none => simp
        | some x => simpa [keysOf] using ih P x
      | _ => simp [without, get]

/-! ## The same JSON -/

/-- What a value is by itself, without what it holds. -/
inductive Kind where
  | list
  | dict
  | number (q : ℚ)
  | scalar (v : Value)

def kind : Value → Kind
  | .list _ => .list
  | .dict _ => .dict
  | .int n => .number n
  | .float (.fin q _ _) => .number q
  | .negZero => .number 0
  | v => .scalar v

/-- The two values have the same at every location, so their arrays are as long and their
objects have the same keys, in whatever order. -/
def SameJson (v w : Value) : Prop := ∀ path, (get path v).map kind = (get path w).map kind

theorem SameJson.refl (v : Value) : SameJson v v := fun _ => rfl

theorem kind_without (P : List Str → Bool) (v : Value) : kind (without P v) = kind v := by
  cases v <;> rfl

/-- The same is left where the same is taken out. -/
theorem SameJson.without {v w : Value} (h : SameJson v w) (P : List Str → Bool) :
    SameJson (without P v) (without P w) := by
  intro path
  rw [get_without, get_without]
  split
  · rfl
  · rw [Option.map_map, Option.map_map]
    have hkind : ∀ P : List Str → Bool, kind ∘ Value.without P = kind := fun P =>
      funext (kind_without P)
    rw [hkind, h path]

/-! ## Cutting lists -/

mutual
/-- Every list is cut to its first `max` items. -/
def cut (max : Nat) : Value → Value
  | .list xs => .list (cutElems max max xs)
  | .dict ms => .dict (cutMembers max ms)
  | v => v

/-- The first `n` items. -/
def cutElems (max : Nat) : Nat → List Value → List Value
  | _, [] => []
  | 0, _ :: _ => []
  | n + 1, x :: xs => cut max x :: cutElems max n xs

def cutMembers (max : Nat) : List (Str × Value) → List (Str × Value)
  | [] => []
  | m :: ms => (m.1, cut max m.2) :: cutMembers max ms
end

variable (max : Nat)

theorem cutElems_eq (n : Nat) (xs : List Value) :
    cutElems max n xs = (xs.take n).map (cut max) := by
  induction xs generalizing n with
  | nil => cases n <;> rfl
  | cons x xs ih =>
    cases n with
    | zero => rfl
    | succ n => rw [cutElems, ih, List.take_succ_cons, List.map_cons]

theorem keys_cutMembers (ms : List (Str × Value)) :
    (cutMembers max ms).map Prod.fst = ms.map Prod.fst := by
  induction ms with
  | nil => rfl
  | cons m ms ih => rw [cutMembers, List.map_cons, List.map_cons, ih]

theorem lookup_cutMembers (name : Str) (ms : List (Str × Value)) :
    Dict.lookup name (cutMembers max ms) = (Dict.lookup name ms).map (cut max) := by
  induction ms with
  | nil => rfl
  | cons m ms ih =>
    rw [cutMembers, Dict.lookup, Dict.lookup]
    by_cases hm : m.1 = name
    · rw [if_pos hm, if_pos hm, Option.map_some]
    · rw [if_neg hm, if_neg hm, ih]

mutual
theorem cut_cut : ∀ v, cut max (cut max v) = cut max v
  | .list xs => by rw [cut, cut, cutElems_cutElems]
  | .dict ms => by rw [cut, cut, cutMembers_cutMembers ms]
  | .null | .bool _ | .int _ | .float _ | .negZero | .str _ => rfl

theorem cutElems_cutElems :
    ∀ n xs, cutElems max n (cutElems max n xs) = cutElems max n xs
  | 0, [] | _ + 1, [] => rfl
  | 0, _ :: _ => rfl
  | n + 1, x :: xs => by rw [cutElems, cutElems, cut_cut x, cutElems_cutElems n xs]

theorem cutMembers_cutMembers :
    ∀ ms, cutMembers max (cutMembers max ms) = cutMembers max ms
  | [] => rfl
  | m :: ms => by
    rw [cutMembers, cutMembers, cut_cut m.2, cutMembers_cutMembers ms]
end

mutual
theorem cut_without (P : List Str → Bool) : ∀ v,
    cut max (without P v) = without P (cut max v)
  | .list xs => by rw [without, cut, cut, without, cutElems_without P _ xs]
  | .dict ms => by rw [without, cut, cut, without, cutMembers_without P ms]
  | .null | .bool _ | .int _ | .float _ | .negZero | .str _ => rfl

theorem cutElems_without (P : List Str → Bool) : ∀ n xs,
    cutElems max n (withoutElems P xs) = withoutElems P (cutElems max n xs)
  | 0, [] | _ + 1, [] => rfl
  | 0, _ :: _ => rfl
  | n + 1, x :: xs => by
    rw [withoutElems, cutElems, cutElems, withoutElems, cut_without P x,
      cutElems_without P n xs]

theorem cutMembers_without (P : List Str → Bool) : ∀ ms,
    cutMembers max (withoutMembers P ms) = withoutMembers P (cutMembers max ms)
  | [] => rfl
  | m :: ms => by
    have ih := cutMembers_without P ms
    rw [withoutMembers, cutMembers, withoutMembers]
    by_cases hm : P [m.1] = true
    · rw [if_pos hm, if_pos hm, ih]
    · rw [if_neg hm, if_neg hm, cutMembers, cut_without _ m.2, ih]
end

mutual
theorem keyed_cut : ∀ v, Keyed v → Keyed (cut max v)
  | .list xs, h => keyed_cutElems _ xs h
  | .dict ms, h => by
    refine ⟨?_, keyed_cutMembers ms h.2⟩
    rw [keys_cutMembers]
    exact h.1
  | .null, h | .bool _, h | .int _, h | .float _, h | .negZero, h | .str _, h => h

theorem keyed_cutElems : ∀ n xs, KeyedElems xs → KeyedElems (cutElems max n xs)
  | 0, [], _ | _ + 1, [], _ => trivial
  | 0, _ :: _, _ => trivial
  | n + 1, x :: xs, h => ⟨keyed_cut x h.1, keyed_cutElems n xs h.2⟩

theorem keyed_cutMembers : ∀ ms, KeyedMembers ms → KeyedMembers (cutMembers max ms)
  | [], _ => trivial
  | m :: ms, h => ⟨keyed_cut m.2 h.1, keyed_cutMembers ms h.2⟩
end

/-! ## Locations of a shorter value -/

/-- Every index of the location is below `max`. -/
def within (max : Nat) : List Step → Bool
  | [] => true
  | .key _ :: path => within max path
  | .index i :: path => decide (i < max) && within max path

theorem get_cut (path : List Step) (v : Value) :
    get path (cut max v) =
      if within max path then (get path v).map (cut max) else none := by
  induction path generalizing v with
  | nil => rfl
  | cons step path ih =>
    cases step with
    | key name =>
      cases v with
      | dict ms =>
        rw [cut, get, lookup_cutMembers, get, within]
        cases hms : Dict.lookup name ms with
        | none => simp
        | some x => exact ih x
      | _ => simp [cut, get]
    | index i =>
      cases v with
      | list xs =>
        rw [cut, get, cutElems_eq, List.getElem?_map, get, within]
        by_cases hi : i < max
        · rw [List.getElem?_take_of_lt hi, decide_eq_true hi, Bool.true_and]
          cases hxs : xs[i]? with
          | none => simp
          | some x => exact ih x
        · rw [List.getElem?_take_eq_none (Nat.le_of_not_lt hi), decide_eq_false hi]
          rfl
      | _ => simp [cut, get]

/-! ## Nothing to take away -/

theorem lookup_of_mem {ms : List (Str × Value)} (h : (ms.map Prod.fst).Nodup) {m : Str × Value}
    (hm : m ∈ ms) : Dict.lookup m.1 ms = some m.2 :=
  Dict.mem_items_iff (d := ⟨ms, h⟩).mp hm

mutual
/-- A value none of whose members is taken out is left as it is. -/
theorem without_of_kept {P : List Str → Bool} : ∀ v, Keyed v →
    (∀ path, (get path v).isSome → passes P path = false) → without P v = v
  | .list xs, hv, h => by
    rw [without, withoutElems_of_kept xs hv fun x hx path hpath => ?_]
    obtain ⟨i, hi⟩ := List.mem_iff_getElem?.mp hx
    exact h (.index i :: path) (by rw [get, hi]; exact hpath)
  | .dict ms, hv, h => by
    rw [without, withoutMembers_of_kept ms hv.2 fun m hm path hpath => ?_]
    have hget := h (.key m.1 :: path) (by rw [get, lookup_of_mem hv.1 hm]; exact hpath)
    exact hget
  | .null, _, _ | .bool _, _, _ | .int _, _, _ | .float _, _, _ | .negZero, _, _ | .str _, _, _ => rfl

theorem withoutElems_of_kept {P : List Str → Bool} : ∀ xs, KeyedElems xs →
    (∀ x ∈ xs, ∀ path, (get path x).isSome → passes P path = false) → withoutElems P xs = xs
  | [], _, _ => rfl
  | x :: xs, hxs, h => by
    rw [withoutElems, without_of_kept x hxs.1 (h x List.mem_cons_self),
      withoutElems_of_kept xs hxs.2 fun y hy => h y (List.mem_cons_of_mem x hy)]

theorem withoutMembers_of_kept {P : List Str → Bool} : ∀ ms, KeyedMembers ms →
    (∀ m ∈ ms, ∀ path, (get path m.2).isSome → passes P (.key m.1 :: path) = false) →
      withoutMembers P ms = ms
  | [], _, _ => rfl
  | m :: ms, hms, h => by
    have hm := h m List.mem_cons_self
    have hkey : P [m.1] = false := (Bool.or_eq_false_iff.mp (hm [] rfl)).1
    rw [withoutMembers, hkey,
      withoutMembers_of_kept ms hms.2 fun n hn => h n (List.mem_cons_of_mem m hn),
      without_of_kept m.2 hms.1 fun path hpath => (Bool.or_eq_false_iff.mp (hm path hpath)).2]
    rfl
end

mutual
theorem cut_of_within : ∀ v, Keyed v →
    (∀ path, (get path v).isSome → within max path = true) → cut max v = v
  | .list xs, hv, h => by
    have hlen : xs.length ≤ max := by
      by_contra hlen
      have hlocation := h [.index max] (by
        rw [get, List.getElem?_eq_getElem (Nat.lt_of_not_le hlen)]
        rfl)
      simp [within] at hlocation
    rw [cut, cutElems_of_within max xs hlen hv fun x hx path hpath => ?_]
    obtain ⟨i, hi⟩ := List.mem_iff_getElem?.mp hx
    have hlocation := h (.index i :: path) (by rw [get, hi]; exact hpath)
    exact (Bool.and_eq_true_iff.mp hlocation).2
  | .dict ms, hv, h => by
    rw [cut, cutMembers_of_within ms hv.2 fun m hm path hpath => ?_]
    exact h (.key m.1 :: path) (by rw [get, lookup_of_mem hv.1 hm]; exact hpath)
  | .null, _, _ | .bool _, _, _ | .int _, _, _ | .float _, _, _ | .negZero, _, _ | .str _, _, _ => rfl

theorem cutElems_of_within : ∀ n xs, xs.length ≤ n → KeyedElems xs →
    (∀ x ∈ xs, ∀ path, (get path x).isSome → within max path = true) → cutElems max n xs = xs
  | 0, [], _, _, _ | _ + 1, [], _, _, _ => rfl
  | n + 1, x :: xs, hlen, hxs, h => by
    rw [cutElems, cut_of_within x hxs.1 (h x List.mem_cons_self),
      cutElems_of_within n xs (Nat.le_of_succ_le_succ hlen) hxs.2 fun y hy =>
        h y (List.mem_cons_of_mem x hy)]

theorem cutMembers_of_within : ∀ ms, KeyedMembers ms →
    (∀ m ∈ ms, ∀ path, (get path m.2).isSome → within max path = true) → cutMembers max ms = ms
  | [], _, _ => rfl
  | m :: ms, hms, h => by
    rw [cutMembers, cut_of_within m.2 hms.1 fun path hpath => h m List.mem_cons_self path hpath,
      cutMembers_of_within ms hms.2 fun n hn => h n (List.mem_cons_of_mem m hn)]
end

end Value

end Python
