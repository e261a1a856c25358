/-
Insertion-ordered dictionaries.

A dictionary is its list of items, together with the proof that no key occurs
twice.  Assignment to a present key replaces the value in place and assignment
to a new key appends, so iteration order is insertion order.
-/
import Mathlib.Data.List.Nodup

namespace Codec

variable {κ α β : Type}

structure Dict (κ α : Type) where
  items : List (κ × α)
  nodup : (items.map Prod.fst).Nodup

namespace Dict

theorem ext_items {d e : Dict κ α} (h : d.items = e.items) : d = e := by
  cases d
  cases e
  cases h
  rfl

instance [DecidableEq κ] [DecidableEq α] : DecidableEq (Dict κ α) := fun d e =>
  decidable_of_iff (d.items = e.items) ⟨ext_items, fun h => h ▸ rfl⟩

instance : Inhabited (Dict κ α) := ⟨⟨[], List.nodup_nil⟩⟩

def empty : Dict κ α := ⟨[], List.nodup_nil⟩

/-- The dictionary without the items that `p` refuses. -/
def filter (p : κ × α → Bool) (d : Dict κ α) : Dict κ α where
  items := d.items.filter p
  nodup := d.nodup.sublist (List.filter_sublist.map Prod.fst)

def mapVal (f : α → β) (d : Dict κ α) : Dict κ β where
  items := d.items.map fun e => (e.1, f e.2)
  nodup := by
    have h : (d.items.map fun e => (e.1, f e.2)).map Prod.fst = d.items.map Prod.fst := by
      simp [Function.comp_def]
    rw [h]
    exact d.nodup

section

variable [DecidableEq κ]

/-- The first value stored under a key in a list of items. -/
def lookup (k : κ) : List (κ × α) → Option α
  | [] => none
  | e :: es => if e.1 = k then some e.2 else lookup k es

def get? (d : Dict κ α) (k : κ) : Option α := lookup k d.items

def assign (k : κ) (v : α) : List (κ × α) → List (κ × α)
  | [] => [(k, v)]
  | e :: es => if e.1 = k then (k, v) :: es else e :: assign k v es

theorem keys_assign (k : κ) (v : α) (es : List (κ × α)) :
    (assign k v es).map Prod.fst =
      if k ∈ es.map Prod.fst then es.map Prod.fst else es.map Prod.fst ++ [k] := by
  induction es with
  | nil => rfl
  | cons e es ih =>
    by_cases he : e.1 = k
    · simp [assign, he]
    · simp only [assign, if_neg he, List.map_cons, ih, List.mem_cons, Ne.symm he, false_or]
      split <;> simp

/-- `d[k] = v`. -/
def set (d : Dict κ α) (k : κ) (v : α) : Dict κ α where
  items := assign k v d.items
  nodup := by
    rw [keys_assign]
    split
    next => exact d.nodup
    next h => exact List.nodup_append.mpr ⟨d.nodup, by simp, by
        intro a ha b hb
        obtain rfl : b = k := by simpa using hb
        exact fun hab => h (hab ▸ ha)⟩

/-- `d.pop(k, None)`. -/
def erase (d : Dict κ α) (k : κ) : Dict κ α := d.filter fun e => decide (e.1 ≠ k)

/-- A dictionary display: later items overwrite earlier ones. -/
def ofPairs (es : List (κ × α)) : Dict κ α := es.foldl (fun d e => d.set e.1 e.2) empty

theorem assign_of_not_mem {k : κ} {v : α} {es : List (κ × α)} (h : k ∉ es.map Prod.fst) :
    assign k v es = es ++ [(k, v)] := by
  induction es with
  | nil => rfl
  | cons e es ih =>
    have he : e.1 ≠ k := fun he => h (by simp [he])
    have hes : k ∉ es.map Prod.fst := fun hm => h (List.mem_cons_of_mem _ hm)
    simp only [assign, if_neg he, ih hes, List.cons_append]

/-- Rebuilding from items with distinct keys appends them one by one. -/
theorem foldl_set_items {es : List (κ × α)} {d : Dict κ α}
    (h : (d.items.map Prod.fst ++ es.map Prod.fst).Nodup) :
    (es.foldl (fun d e => d.set e.1 e.2) d).items = d.items ++ es := by
  induction es generalizing d with
  | nil => simp
  | cons e es ih =>
    have hnd := List.nodup_append.mp h
    have hk : e.1 ∉ d.items.map Prod.fst := fun hm => hnd.2.2 e.1 hm e.1 (by simp) rfl
    have hset : (d.set e.1 e.2).items = d.items ++ [e] := assign_of_not_mem hk
    rw [List.foldl_cons, ih, hset, List.append_assoc, List.singleton_append]
    rw [hset]
    simpa using h

theorem ofPairs_items (d : Dict κ α) : ofPairs d.items = d := by
  refine ext_items ?_
  have h := foldl_set_items (d := (empty : Dict κ α)) (show _ from by simpa [empty] using d.nodup)
  simpa [ofPairs, empty] using h

/-- All values of a key, in order. -/
def values (k : κ) (es : List (κ × α)) : List α := (es.filter fun e => decide (e.1 = k)).map Prod.snd

theorem lookup_eq_head? (k : κ) (es : List (κ × α)) : lookup k es = (values k es).head? := by
  induction es with
  | nil => rfl
  | cons e es ih =>
    by_cases he : e.1 = k
    · simp [lookup, values, he]
    · simp [lookup, values, he, ih]

theorem mem_of_lookup {k : κ} {v : α} {es : List (κ × α)} (h : lookup k es = some v) :
    (k, v) ∈ es := by
  induction es with
  | nil => cases h
  | cons e es ih =>
    by_cases he : e.1 = k
    · simp only [lookup, if_pos he, Option.some.injEq] at h
      rw [← he, ← h]
      exact List.mem_cons_self
    · simp only [lookup, if_neg he] at h
      exact List.mem_cons_of_mem e (ih h)

theorem exists_lookup_of_mem {k : κ} {v : α} {es : List (κ × α)} (h : (k, v) ∈ es) :
    ∃ v', lookup k es = some v' := by
  induction es with
  | nil => cases h
  | cons e es ih =>
    by_cases he : e.1 = k
    · exact ⟨e.2, by simp only [lookup, if_pos he]⟩
    · simp only [lookup, if_neg he]
      rcases List.mem_cons.mp h with hk | hk
      · exact absurd (congrArg Prod.fst hk).symm he
      · exact ih hk

/-- The keys are distinct, so an item is what its key is bound to. -/
theorem mem_items_iff {d : Dict κ α} {k : κ} {v : α} : (k, v) ∈ d.items ↔ d.get? k = some v := by
  constructor
  · intro h
    obtain ⟨v', hv'⟩ := exists_lookup_of_mem h
    have heq : (k, v) = (k, v') :=
      List.inj_on_of_nodup_map d.nodup h (mem_of_lookup hv') rfl
    cases heq
    exact hv'
  · exact mem_of_lookup

/-- The value of a key stands among the values where the key stands among the keys. -/
theorem getElem?_idxOf [BEq κ] [LawfulBEq κ] (k : κ) (es : List (κ × α)) :
    (es.map Prod.snd)[(es.map Prod.fst).idxOf k]? = lookup k es := by
  induction es with
  | nil => rfl
  | cons e es ih =>
    rw [List.map_cons, List.map_cons, List.idxOf_cons, lookup]
    by_cases he : e.1 = k
    · rw [if_pos he, beq_iff_eq.mpr he]
      rfl
    · rw [if_neg he, beq_eq_false_iff_ne.mpr he]
      exact ih

/-- The items that `f` has a value for. -/
theorem lookup_filterMap (f : κ → Option α) {k : κ} {keys : List κ} (hk : k ∈ keys) :
    lookup k (keys.filterMap fun key => (f key).map fun v => (key, v)) = f k := by
  induction keys with
  | nil => cases hk
  | cons key keys ih =>
    rw [List.filterMap_cons]
    cases hvalue : f key with
    | none =>
      rw [Option.map_none]
      by_cases hmem : k ∈ keys
      · exact ih hmem
      · obtain rfl : k = key := (List.mem_cons.mp hk).resolve_right hmem
        rw [hvalue]
        refine Option.eq_none_iff_forall_ne_some.mpr fun v hv => hmem ?_
        obtain ⟨key, hkey, hmap⟩ := List.mem_filterMap.mp (mem_of_lookup hv)
        obtain ⟨v', -, hpair⟩ := Option.map_eq_some_iff.mp hmap
        rwa [← (Prod.mk.inj hpair).1]
    | some v =>
      by_cases hkey : key = k
      · rw [← hkey, hvalue]
        exact if_pos rfl
      · refine (if_neg hkey).trans (ih ((List.mem_cons.mp hk).resolve_left fun h => hkey h.symm))

omit [DecidableEq κ] in
theorem keys_filterMap (f : κ → Option α) (keys : List κ) :
    (keys.filterMap fun key => (f key).map fun v => (key, v)).map Prod.fst =
      keys.filter fun key => (f key).isSome := by
  rw [List.map_filterMap, ← List.filterMap_eq_filter]
  refine congrFun (congrArg List.filterMap (funext fun key => ?_)) keys
  cases hvalue : f key <;> simp [hvalue, Option.guard]

/-- The order of the items does not matter to a lookup. -/
theorem lookup_perm {es es' : List (κ × α)} (hperm : es.Perm es')
    (hnodup : (es.map Prod.fst).Nodup) (k : κ) : lookup k es = lookup k es' := by
  have hnodup' : (es'.map Prod.fst).Nodup := (hperm.map Prod.fst).nodup_iff.mp hnodup
  have hmem : ∀ v, lookup k es = some v ↔ (k, v) ∈ es := fun v =>
    (mem_items_iff (d := ⟨es, hnodup⟩)).symm
  have hmem' : ∀ v, lookup k es' = some v ↔ (k, v) ∈ es' := fun v =>
    (mem_items_iff (d := ⟨es', hnodup'⟩)).symm
  refine Option.ext fun v => ?_
  rw [hmem, hmem', hperm.mem_iff]

theorem lookup_assign (k k' : κ) (v : α) (es : List (κ × α)) :
    lookup k' (assign k v es) = if k = k' then some v else lookup k' es := by
  induction es with
  | nil => rfl
  | cons e es ih =>
    by_cases he : e.1 = k
    · by_cases hk : k = k'
      · simp [assign, lookup, he, hk]
      · simp [assign, lookup, he, hk]
    · by_cases hk : e.1 = k'
      · have hkk : k ≠ k' := fun h => he (hk.trans h.symm)
        simp only [assign, if_neg he, lookup, if_pos hk, if_neg hkk]
      · simp only [assign, if_neg he, lookup, if_neg hk, ih]

theorem get?_set (d : Dict κ α) (k k' : κ) (v : α) :
    (d.set k v).get? k' = if k = k' then some v else d.get? k' := lookup_assign k k' v d.items

theorem get?_mapVal {β : Type} (f : α → β) (d : Dict κ α) (k : κ) :
    (d.mapVal f).get? k = (d.get? k).map f := by
  show lookup k (d.items.map fun e => (e.1, f e.2)) = (lookup k d.items).map f
  induction d.items with
  | nil => rfl
  | cons e es ih =>
    by_cases hk : e.1 = k
    · simp [lookup, hk]
    · simpa [lookup, hk] using ih

theorem get?_filter {p : κ × α → Bool} {q : κ → Bool} (hp : ∀ e, p e = q e.1) (d : Dict κ α) (k : κ) :
    (d.filter p).get? k = if q k = true then d.get? k else none := by
  show lookup k (d.items.filter p) = if q k = true then lookup k d.items else none
  induction d.items with
  | nil => simp [lookup]
  | cons e es ih =>
    by_cases he : e.1 = k
    · by_cases hq : q k = true
      · simp [hp, lookup, he, hq]
      · rw [List.filter_cons_of_neg (by simp [hp, he, hq]), ih, if_neg hq, if_neg hq]
    · by_cases hq : q e.1 = true
      · simp [hp, hq, lookup, he, ih]
      · simp [hp, hq, lookup, he, ih]

theorem get?_erase (d : Dict κ α) (k k' : κ) :
    (d.erase k).get? k' = if k = k' then none else d.get? k' := by
  rw [erase, get?_filter (q := fun k' => decide (k' ≠ k)) (fun _ => rfl)]
  by_cases hk : k = k'
  · simp [hk]
  · simp [hk, Ne.symm hk]

theorem get?_foldl_erase (names : List κ) (d : Dict κ α) (k : κ) :
    (names.foldl erase d).get? k = if k ∈ names then none else d.get? k := by
  induction names generalizing d with
  | nil => simp
  | cons name names ih =>
    rw [List.foldl_cons, ih, get?_erase]
    by_cases hk : name = k
    · simp [hk]
    · simp [hk, Ne.symm hk]

theorem values_append (k : κ) (es fs : List (κ × α)) :
    values k (es ++ fs) = values k es ++ values k fs := by
  simp [values]

theorem values_filter {p : κ × α → Bool} {q : κ → Bool} (hp : ∀ e, p e = q e.1)
    (es : List (κ × α)) (k : κ) :
    values k (es.filter p) = if q k = true then values k es else [] := by
  simp only [values, List.filter_filter]
  split
  next hq =>
    refine congrArg _ (List.filter_congr fun e _ => ?_)
    by_cases he : e.1 = k
    · simp [hp, he, hq]
    · simp [he]
  next hq =>
    rw [List.map_eq_nil_iff, List.filter_eq_nil_iff]
    intro e _ he
    rw [Bool.and_eq_true, decide_eq_true_eq] at he
    exact hq (he.1 ▸ (hp e).symm.trans he.2)

/-- A key of a dictionary has at most one value. -/
theorem values_items (d : Dict κ α) (k : κ) : values k d.items = (d.get? k).toList := by
  have h : ∀ es : List (κ × α), (es.map Prod.fst).Nodup → values k es = (lookup k es).toList := by
    intro es hes
    induction es with
    | nil => rfl
    | cons e es ih =>
      obtain ⟨hnew, hes⟩ := List.nodup_cons.mp hes
      by_cases he : e.1 = k
      · have hnone : values k es = [] := by
          simp only [values, List.map_eq_nil_iff, List.filter_eq_nil_iff, decide_eq_true_eq]
          intro f hf hfk
          exact hnew (List.mem_map.mpr ⟨f, hf, hfk.trans he.symm⟩)
        have hcons : values k (e :: es) = e.2 :: values k es := by simp [values, he]
        rw [hcons, hnone, lookup, if_pos he]
        rfl
      · have hcons : values k (e :: es) = values k es := by simp [values, he]
        rw [hcons, ih hes, lookup, if_neg he]
  exact h d.items d.nodup

/-- The later of two items with one key wins. -/
theorem get?_foldl_set (es : List (κ × α)) (d : Dict κ α) (k : κ) :
    (es.foldl (fun d e => d.set e.1 e.2) d).get? k = ((values k es).getLast?).or (d.get? k) := by
  induction es generalizing d with
  | nil => rfl
  | cons e es ih =>
    rw [List.foldl_cons, ih, get?_set]
    by_cases he : e.1 = k
    · have hcons : values k (e :: es) = e.2 :: values k es := by simp [values, he]
      rw [hcons, if_pos he, List.getLast?_cons]
      cases (values k es).getLast? <;> rfl
    · have hcons : values k (e :: es) = values k es := by simp [values, he]
      rw [hcons, if_neg he]

theorem get?_ofPairs (es : List (κ × α)) (k : κ) : (ofPairs es).get? k = (values k es).getLast? := by
  rw [ofPairs, get?_foldl_set]
  exact Option.or_none

theorem mem_iff_get?_ofPairs {es : List (κ × α)} (h : (es.map Prod.fst).Nodup) {k : κ} {v : α} :
    (k, v) ∈ es ↔ (ofPairs es).get? k = some v := by
  rw [ofPairs_items ⟨es, h⟩, ← mem_items_iff]

/-- `dict(m)` for a multi-map whose subscription returns the first of several values. -/
def firsts (es : List (κ × α)) : Dict κ α :=
  ofPairs (es.map fun e => (e.1, (lookup e.1 es).getD e.2))

theorem get?_firsts (es : List (κ × α)) (k : κ) : (firsts es).get? k = lookup k es := by
  have hvalues : values k (es.map fun e => (e.1, (lookup e.1 es).getD e.2)) =
      (values k es).map fun v => (lookup k es).getD v := by
    simp only [values, List.filter_map, List.map_map, Function.comp_def]
    refine List.map_congr_left fun e he => ?_
    rw [of_decide_eq_true (List.mem_filter.mp he).2]
  rw [firsts, get?_ofPairs, hvalues, List.getLast?_map]
  cases hk : lookup k es with
  | none =>
    rw [lookup_eq_head?, List.head?_eq_none_iff] at hk
    rw [hk]
    rfl
  | some v =>
    have hne : values k es ≠ [] := by
      intro hnil
      rw [lookup_eq_head?, hnil] at hk
      cases hk
    rw [List.getLast?_eq_some_getLast hne]
    rfl

/-! ## What all keys have in common -/

def AllKeys (P : κ → Prop) (d : Dict κ α) : Prop := ∀ k ∈ d.items.map Prod.fst, P k

theorem AllKeys.set {P : κ → Prop} {d : Dict κ α} (h : d.AllKeys P) {k : κ} (hk : P k) (v : α) :
    (d.set k v).AllKeys P := by
  intro k' hk'
  rw [show (d.set k v).items = assign k v d.items from rfl, keys_assign] at hk'
  split at hk'
  · exact h k' hk'
  · rcases List.mem_append.mp hk' with hk' | hk'
    · exact h k' hk'
    · rw [List.mem_singleton.mp hk']
      exact hk

omit [DecidableEq κ] in
theorem AllKeys.filter {P : κ → Prop} {d : Dict κ α} (h : d.AllKeys P) (p : κ × α → Bool) :
    (d.filter p).AllKeys P := by
  intro k hk
  obtain ⟨e, he, rfl⟩ := List.mem_map.mp hk
  exact h e.1 (List.mem_map_of_mem (List.mem_of_mem_filter he))

theorem AllKeys.erase {P : κ → Prop} {d : Dict κ α} (h : d.AllKeys P) (k : κ) :
    (d.erase k).AllKeys P := h.filter _

theorem AllKeys.foldl_erase {P : κ → Prop} {d : Dict κ α} (h : d.AllKeys P) (names : List κ) :
    (names.foldl Dict.erase d).AllKeys P := by
  induction names generalizing d with
  | nil => exact h
  | cons name names ih => exact ih (h.erase name)

theorem AllKeys.ofPairs {P : κ → Prop} {es : List (κ × α)} (h : ∀ e ∈ es, P e.1) :
    (ofPairs es).AllKeys P := by
  have hfold : ∀ (fs : List (κ × α)) (d : Dict κ α), (∀ e ∈ fs, P e.1) → d.AllKeys P →
      (fs.foldl (fun d e => d.set e.1 e.2) d).AllKeys P := by
    intro fs
    induction fs with
    | nil => exact fun d _ hd => hd
    | cons f fs ih =>
      intro d hfs hd
      exact ih _ (fun e he => hfs e (List.mem_cons_of_mem f he))
        (hd.set (hfs f List.mem_cons_self) f.2)
  exact hfold es empty h fun k hk => by cases hk

end

end Dict

end Codec
