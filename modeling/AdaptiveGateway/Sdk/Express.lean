/-
Stripping in the Express middleware.

The middleware takes the configured fields out of a body as the gateway does, but in place, on a
clone that it makes by writing the body as JSON and parsing it.  A clone is a tree, so a deletion
is seen at one place only, and it consists of new nodes, so the body is left as it is.
-/
import AdaptiveGateway.Js.InPlace
import AdaptiveGateway.Optimizer.Stripping

namespace AdaptiveGateway

namespace Sdk

open Codec Python Js
open Optimizer

namespace Express

/-! ## `deleteNestedPath` and `stripPayload` -/

def forbiddenKeys : List Text := ["__proto__", "prototype", "constructor"]

/-- `stack` is how deep its calls may still nest, and without a result the stack has
overflowed. -/
def deleteNestedPath : Nat → Heap → Val → Text → Option Heap
  | 0, _, _, _ => none
  | stack + 1, heap, .ref obj, path =>
    if (splitOn '.' path).any fun key => decide (key ∈ forbiddenKeys) then some heap
    else
      match heap[obj]? with
      | some (.array items) =>
        items.foldlM (fun heap item => deleteNestedPath stack heap item path) heap
      | some (.object props) =>
        match splitOn '.' path with
        | head :: tail =>
          match props.get? (Str.ofText head) with
          | some value =>
            if tail ≠ [] then deleteNestedPath stack heap value (['.'].intercalate tail)
            else some (heap.set obj (.object (props.erase (Str.ofText head))))
          | none => some heap
        | [] => some heap
      | none => some heap
  | _ + 1, heap, _, _ => some heap

/-- `fields.forEach(field => deleteNestedPath(obj, field))` -/
def deleteFields (fields : List Text) (stack : Nat) (heap : Heap) (obj : Val) : Option Heap :=
  fields.foldlM (fun heap field => deleteNestedPath stack heap obj field) heap

/-- The items of an array. -/
def arrayItems (heap : Heap) : Val → Option (List Val)
  | .ref a =>
    match heap[a]? with
    | some (.array items) => some items
    | _ => none
  | _ => none

/-- What `stripPayload` does with its clone. -/
def stripClone (fields : List Text) (stack : Nat) (heap : Heap) (cleanPayload : Val) :
    Option Heap :=
  match arrayItems heap cleanPayload with
  | some items => items.foldlM (deleteFields fields stack) heap
  | none => deleteFields fields stack heap cleanPayload

def stripPayload (stack : Nat) (heap : Heap) (payload : Val) (fields : List Text) :
    Option (Heap × Val) :=
  match stringify stack heap payload with
  | some json =>
    let (heap, cleanPayload) := parse json heap
    (stripClone fields stack heap cleanPayload).map fun heap => (heap, cleanPayload)
  -- Fallback if not serializable
  | none => some (heap, payload)

/-! ## One field -/

section Field

variable {path : Text}

/-- The deletion on one value. -/
def deletion (path : Text) (stack : Nat) (heap : Heap) (obj : Val) : Option Heap :=
  deleteNestedPath stack heap obj path

mutual
/-- A deletion that does on every object what `g` does passes through arrays as `onDicts`. -/
theorem inPlace_onDicts (hpath : ∀ key ∈ splitOn '.' path, key ∉ forbiddenKeys)
    {g : List (Str × Value) → List (Str × Value)}
    (hdict : ∀ ms, InPlace (deletion path) (.dict ms) (.dict (g ms))) :
    ∀ x, InPlace (deletion path) x (onDicts g x)
  | .list xs => by
    intro h v lo hi hown
    obtain ⟨a, vs, h', rfl, hnode, hret, hown', hsame⟩ :=
      hown.forEach (inPlace_onDictsElems hpath hdict xs)
    refine ⟨h', hret.call fun stack => ?_, ?_, hsame⟩
    · rw [deletion, deleteNestedPath, if_neg (by simpa using hpath)]
      simp only [hnode]
      rfl
    · rw [onDicts, onDictsElems_eq]
      exact hown'
  | .dict ms => hdict ms
  | .int _ | .negZero => fun h v lo hi hown => by
    rw [Owns] at hown
    exact hown.elim
  | .null | .bool b | .str s => fun h v lo hi hown => by
    have hv := hown
    rw [Owns] at hv
    obtain ⟨-, rfl⟩ := hv
    exact ⟨h, Returns.pure.call fun _ => rfl, hown, .refl⟩
  | .float x => fun h v lo hi hown => by
    have hv := hown
    rw [Owns] at hv
    obtain ⟨-, -, rfl⟩ := hv
    exact ⟨h, Returns.pure.call fun _ => rfl, hown, .refl⟩

theorem inPlace_onDictsElems (hpath : ∀ key ∈ splitOn '.' path, key ∉ forbiddenKeys)
    {g : List (Str × Value) → List (Str × Value)}
    (hdict : ∀ ms, InPlace (deletion path) (.dict ms) (.dict (g ms))) :
    ∀ (xs : List Value), ∀ x ∈ xs, InPlace (deletion path) x (onDicts g x)
  | [] => fun x hx => by cases hx
  | y :: ys => by
    intro x hx
    rcases List.mem_cons.mp hx with hxy | hx
    · rw [hxy]
      exact inPlace_onDicts hpath hdict y
    · exact inPlace_onDictsElems hpath hdict ys x hx
end

/-- On an object that has its first key, a path does what its last key or its tail does. -/
theorem deleteNestedPath_object {head : Text} {tail : List Text}
    (hsplit : splitOn '.' path = head :: tail)
    (hpath : ∀ key ∈ splitOn '.' path, key ∉ forbiddenKeys) {h : Heap} {a : Nat}
    {props : Dict Str Val} (hnode : h[a]? = some (.object props)) (stack : Nat) :
    deleteNestedPath (stack + 1) h (.ref a) path =
      match props.get? (Str.ofText head) with
      | some w =>
        if tail ≠ [] then deleteNestedPath stack h w (['.'].intercalate tail)
        else some (h.set a (.object (props.erase (Str.ofText head))))
      | none => some h := by
  rw [deleteNestedPath, if_neg (by simpa using hpath)]
  simp only [hnode, hsplit]

/-- The keys after the first one, joined, are split as before. -/
theorem splitOn_tail {head : Text} {tail : List Text} (hsplit : splitOn '.' path = head :: tail)
    (htail : tail ≠ []) : splitOn '.' (['.'].intercalate tail) = tail := by
  have hdots : ∀ key ∈ tail, '.' ∉ key := fun key hkey =>
    not_mem_splitOn path key (hsplit ▸ List.mem_cons_of_mem _ hkey)
  obtain ⟨next, rest, rfl⟩ := List.exists_cons_of_ne_nil htail
  exact splitOn_join (hdots next List.mem_cons_self) fun key hkey =>
    hdots key (List.mem_cons_of_mem _ hkey)

/-- On every value, the deletion of a path is that of `_strip_fields`. -/
theorem deletion_inPlace {keys : List Text} (hkeys : splitOn '.' path = keys)
    (hpath : ∀ key ∈ keys, key ∉ forbiddenKeys) (x : Value) :
    InPlace (deletion path) x (onDicts (stripPath (keys.map Str.ofText)) x) := by
  induction keys generalizing path x with
  | nil => exact absurd hkeys (splitOn_ne_nil '.' path)
  | cons head tail ih =>
    have hall : ∀ key ∈ splitOn '.' path, key ∉ forbiddenKeys := hkeys ▸ hpath
    have hobject := @deleteNestedPath_object path head tail hkeys hall
    refine inPlace_onDicts hall (fun ms h v lo hi hown => ?_) x
    cases hx : Dict.lookup (Str.ofText head) ms with
    | none =>
      obtain ⟨a, d, rfl, hnode, hw⟩ := hown.absent hx
      rw [List.map_cons, stripPath_absent hx]
      refine ⟨h, Returns.pure.call fun stack => ?_, hown, .refl⟩
      rw [deletion, hobject hnode, hw]
    | some x =>
      by_cases htail : tail = []
      · obtain ⟨a, d, w, rfl, hnode, hw, hown', hsame⟩ := hown.erase hx
        rw [htail]
        refine ⟨_, Returns.pure.call fun stack => ?_, hown', hsame⟩
        rw [deletion, hobject hnode, hw, htail]
        rfl
      · have hop := ih (splitOn_tail hkeys htail)
          (fun key hkey => hpath key (List.mem_cons_of_mem _ hkey)) x
        obtain ⟨a, d, w, h', rfl, hnode, hw, hret, hown', hsame⟩ := hown.member hx hop
        rw [List.map_cons, stripPath_member hx fun hnil => htail (List.map_eq_nil_iff.mp hnil)]
        refine ⟨h', hret.call fun stack => ?_, hown', hsame⟩
        rw [deletion, hobject hnode, hw]
        exact if_pos htail

end Field

/-! ## A whole body -/

/-- Every key of a field is one that can be taken out. -/
def Plain (field : Text) : Prop := ∀ key ∈ splitOn '.' field, key ≠ [] ∧ key ∉ forbiddenKeys

theorem Plain.keys {field : Text} (h : Plain field) :
    keys field = (splitOn '.' field).map Str.ofText := by
  rw [Optimizer.keys, keyPath]
  split
  next k ks hrev =>
    have hmem : [] ∈ splitOn '.' field := by
      rw [← List.mem_reverse, hrev]
      exact List.mem_cons_self
    exact absurd rfl (h [] hmem).1
  next => rfl

/-- What is not a list is not an array. -/
theorem arrayItems_of_reads {h : Heap} {x : Value} {v : Val} (hread : Reads h x v)
    (hx : ∀ xs, x ≠ .list xs) : arrayItems h v = none := by
  cases x with
  | list xs => exact absurd rfl (hx xs)
  | dict ms =>
    rw [Reads] at hread
    obtain ⟨a, d, rfl, hnode, -⟩ := hread
    simp only [arrayItems, hnode]
  | int n =>
    rw [Reads] at hread
    exact hread.elim
  | negZero =>
    rw [Reads] at hread
    exact hread.elim
  | float x =>
    rw [Reads] at hread
    rw [hread.2]
    rfl
  | _ =>
    rw [Reads] at hread
    rw [hread]
    rfl

section Body

variable {fields : List Text}

theorem deleteFields_inPlace (hfields : ∀ field ∈ fields, Plain field) (x : Value) :
    InPlace (deleteFields fields) x (stripFields x fields) := by
  have hone : ∀ field ∈ fields, ∀ x,
      InPlace (deletion field) x (onDicts (stripPath (keys field)) x) := by
    intro field hfield x
    rw [(hfields field hfield).keys]
    exact deletion_inPlace rfl (fun key hkey => (hfields field hfield key hkey).2) x
  rw [stripFields_eq_foldl]
  exact InPlace.foldlM hone x

theorem stripClone_inPlace (hfields : ∀ field ∈ fields, Plain field) (x : Value) :
    InPlace (stripClone fields) x (stripFields x fields) := by
  intro h v lo hi hown
  cases x with
  | list xs =>
    obtain ⟨a, vs, h', rfl, hnode, hret, hown', hsame⟩ :=
      hown.forEach fun x _ => deleteFields_inPlace hfields x
    have hitems : arrayItems h (.ref a) = some vs := by simp only [arrayItems, hnode]
    rw [stripFields_list]
    refine ⟨h', ?_, hown', hsame⟩
    simp only [stripClone, hitems]
    exact hret
  | _ =>
    have hitems : arrayItems h v = none :=
      arrayItems_of_reads hown.reads fun xs hxs => by cases hxs
    obtain ⟨h', hret, hown', hsame⟩ := deleteFields_inPlace hfields _ h v lo hi hown
    refine ⟨h', ?_, hown', hsame⟩
    simp only [stripClone, hitems]
    exact hret

/-- The value `v` is the JSON value `x`, up to the order of the properties. -/
def Represents (h : Heap) (v : Val) (x : Value) : Prop := ∃ x', Reads h x' v ∧ Value.SameJson x' x

/-- `stripPayload` returns what `_strip_fields` does, in new nodes, and leaves all others as they
are. -/
theorem stripPayload_eq_stripFields {heap : Heap} {payload : Val} {value : Value}
    (hvalue : Represents heap payload value) (hkeyed : value.Keyed)
    (hfields : ∀ field ∈ fields, Plain field) :
    ∃ heap' out, Returns (fun stack => stripPayload stack heap payload fields) (heap', out) ∧
      Represents heap' out (stripFields value fields) ∧
      ∀ (a : Nat) (n : Node), heap[a]? = some n → heap'[a]? = some n := by
  obtain ⟨x, hread, hsame⟩ := hvalue
  obtain ⟨hgrown, hown⟩ := hread.parse heap
  obtain ⟨heap', hstrip, hown', huntouched⟩ := stripClone_inPlace hfields x _ _ _ _ hown
  refine ⟨heap', (parse x heap).2, ?_, ⟨stripFields x fields, hown'.reads, ?_⟩, ?_⟩
  · obtain ⟨m, hm⟩ := hread.stringify
    obtain ⟨n, hn⟩ := hstrip
    refine ⟨max m n, fun stack hstack => ?_⟩
    simp only [stripPayload, hm stack (le_of_max_le_left hstack)]
    exact congrArg (Option.map _) (hn stack (le_of_max_le_right hstack))
  · rw [stripFields_without fields hread.keyed, stripFields_without fields hkeyed]
    exact hsame.without _
  · intro a n hnode
    have hold : a < heap.length := (List.getElem?_eq_some_iff.mp hnode).1
    obtain ⟨new, hnew⟩ := hgrown
    rw [huntouched a (.inl hold), ← hnew, List.getElem?_append_left hold]
    exact hnode

end Body

/-- `{d: [e, e]}`, where both items are one object `e`. -/
def sharedEntry : Heap :=
  [.object ⟨[("x", .null), ("y", .bool true)], by decide⟩, .array [.ref 0, .ref 0],
    .object ⟨[("d", .ref 1)], by decide⟩]

theorem stripPayload_eq_stripFields_shared :
    ∃ heap' out,
      Returns (fun stack => stripPayload stack sharedEntry (.ref 2) ["d.x"]) (heap', out) ∧
      Represents heap' out
        (.dict [("d", .list [.dict [("y", .bool true)], .dict [("y", .bool true)]])]) ∧
      ∀ (a : Nat) (n : Node), sharedEntry[a]? = some n → heap'[a]? = some n := by
  let entry : Value := .dict [("x", .null), ("y", .bool true)]
  have hread : Reads sharedEntry (.dict [("d", .list [entry, entry])]) (.ref 2) := by
    simp [entry, Reads, ReadsElems, ReadsMembers, sharedEntry]
  have hplain : (splitOn '.' "d.x").all
      (fun key => decide (key ≠ [] ∧ key ∉ forbiddenKeys)) = true := by decide
  have hfields : ∀ field ∈ (["d.x"] : List Text), Plain field := by
    intro field hfield key hkey
    rw [List.mem_singleton.mp hfield] at hkey
    exact of_decide_eq_true (List.all_eq_true.mp hplain key hkey)
  have hstrip : stripFields (.dict [("d", .list [entry, entry])]) ["d.x"] =
      .dict [("d", .list [.dict [("y", .bool true)], .dict [("y", .bool true)]])] := rfl
  rw [← hstrip]
  exact stripPayload_eq_stripFields ⟨_, hread, .refl _⟩ hread.keyed hfields

end Express
end Sdk
end AdaptiveGateway
