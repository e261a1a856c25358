/-
Reducing a JSON body.

A value is stripped of the configured fields, and a skeleton has its arrays cut
short as well.  A field is a dotted key path; arrays on the way are passed through
item by item.

The number conversions are a parameter, as is the depth at which the interpreter runs
out of stack.
-/
import AdaptiveGateway.Numbers
import AdaptiveGateway.Python.Bytes

namespace AdaptiveGateway

namespace Optimizer

open Codec Python
open Python.Value

/-- In POOR skeleton mode, truncate JSON arrays to this many items. -/
def SKELETON_MAX_ARRAY_ITEMS : Nat := 10

/-- The heads that `partition(".")` yields, again and again until no tail is left. -/
def keyPath (field : Text) : List Text :=
  match (splitOn '.' field).reverse with
  | [] :: k :: ks => (k :: ks).reverse
  | _ => splitOn '.' field

/-! ## Stripping -/

mutual
/-- Rewrite the dictionaries that are reached through lists. -/
def onDicts (g : List (Str × Value) → List (Str × Value)) : Value → Value
  | .list xs => .list (onDictsElems g xs)
  | .dict ms => .dict (g ms)
  | v => v

def onDictsElems (g : List (Str × Value) → List (Str × Value)) : List Value → List Value
  | [] => []
  | x :: xs => onDicts g x :: onDictsElems g xs
end

/-- One field of `_strip_fields`, on a dictionary. -/
def stripPath : List Str → List (Str × Value) → List (Str × Value)
  | [], ms => ms
  | [head], ms => ms.filter fun m => decide (m.1 ≠ head)
  | head :: tail, ms =>
    match Dict.lookup head ms with
    | some v => Dict.assign head (onDicts (stripPath tail) v) ms
    | none => ms

/-- The keys of a field. -/
def keys (field : Text) : List Str := (keyPath field).map Str.ofText

/-- `_strip_fields`. -/
def stripFields (data : Value) (fields : List Text) : Value :=
  if fields = [] then data
  else onDicts (fun ms => fields.foldl (fun ms field => stripPath (keys field) ms) ms) data

/-! ## Skeletons -/

def truncate (v : Value) : Value := v.cut SKELETON_MAX_ARRAY_ITEMS

/-- `_make_skeleton`. -/
def makeSkeleton (data : Value) (fields : List Text) : Value := truncate (stripFields data fields)

/-! ## The transformation -/

/-- What `_transform_json` takes from the interpreter. -/
structure Interpreter where
  py : Numbers
  /-- `json.loads` of this string raises `RecursionError`. -/
  scanTooDeep : Str → Bool
  /-- The transformation of this value raises `RecursionError`. -/
  walkTooDeep : Value → List Text → Bool → Bool

/-- `json.loads(body)`, `none` for the exceptions that `_transform_json` catches. -/
def Interpreter.loads (it : Interpreter) (body : Bytes) : Option Value :=
  (decodeBytes body).bind fun s =>
    if it.scanTooDeep s then none else Value.loads it.py.int it.py.float s

/-- `json.dumps(_, separators=(",", ":")).encode("utf-8")`. -/
def Interpreter.dumps (it : Interpreter) (v : Value) : Bytes := utf8 (Value.dumps it.py.repr [] v)

/-- `transformed == data`.  The transformation keeps the scalars that it does not
remove, and containers compare their items by identity first, so only a value that is
itself a NaN differs from itself. -/
def unchanged (transformed data : Value) : Bool :=
  decide (transformed = data) && decide (data ≠ .float .nan)

/-- The value that is written. -/
def transformed (data : Value) (fields : List Text) (skeleton : Bool) : Value :=
  if skeleton then makeSkeleton data fields else stripFields data fields

/-- `_transform_json`.  `json.dumps` goes no deeper than `json.loads` went. -/
def transformJson (it : Interpreter) (body : Bytes) (fields : List Text) (skeleton : Bool) : Bytes :=
  match it.loads body with
  | none => body
  | some data =>
    if it.walkTooDeep data fields skeleton then body
    else if unchanged (transformed data fields skeleton) data then body
    else it.dumps (transformed data fields skeleton)

theorem keyed_loaded {it : Interpreter} {body : Bytes} {data : Value}
    (h : it.loads body = some data) : Keyed data := by
  obtain ⟨s, -, hs⟩ := Option.bind_eq_some_iff.mp h
  split at hs
  · cases hs
  · exact keyed_loads hs

/-! ## Key paths -/

theorem splitOn_eq_nil_singleton {sep : Char} {t : Text} (h : splitOn sep t = [[]]) : t = [] := by
  cases t with
  | nil => rfl
  | cons c t =>
    rw [splitOn] at h
    split at h
    · exact absurd (List.cons.inj h).2 (splitOn_ne_nil sep t)
    · split at h
      · cases h
      · cases h

theorem keyPath_of_not_mem {field : Text} (h : '.' ∉ field) : keyPath field = [field] := by
  rw [keyPath, splitOn_of_not_mem h]
  cases field <;> rfl

theorem keyPath_dot {head tail : Text} (h : '.' ∉ head) :
    keyPath (head ++ '.' :: tail) = if tail = [] then [head] else head :: keyPath tail := by
  have hsplit := splitOn_append h tail
  by_cases htail : tail = []
  · subst htail
    rw [if_pos rfl, keyPath, hsplit]
    rfl
  · rw [if_neg htail, keyPath, keyPath, hsplit, List.reverse_cons]
    match hr : (splitOn '.' tail).reverse with
    | [] => cases head <;> rfl
    | [x] =>
      cases x with
      | nil => exact absurd (splitOn_eq_nil_singleton (List.reverse_eq_iff.mp hr)) htail
      | cons c x => rfl
    | [] :: k :: ks =>
      simp
    | (c :: x) :: k :: ks => rfl

theorem keyPath_ne_nil (field : Text) : keyPath field ≠ [] := by
  by_cases hdot : '.' ∈ field
  · obtain ⟨head, tail, rfl, hhead⟩ := List.eq_append_cons_of_mem hdot
    rw [keyPath_dot hhead]
    split <;> exact List.cons_ne_nil _ _
  · rw [keyPath_of_not_mem hdot]
    exact List.cons_ne_nil _ _

theorem keys_ne_nil (field : Text) : keys field ≠ [] := by
  rw [keys, ne_eq, List.map_eq_nil_iff]
  exact keyPath_ne_nil field

/-- The loop of `_strip_fields`, one field at a time. -/
theorem stripPath_keys (field : Text) (ms : List (Str × Value)) :
    stripPath (keys field) ms =
      if (partition '.' field).2 ≠ [] then
        match Dict.lookup (Str.ofText (partition '.' field).1) ms with
        | some v => Dict.assign (Str.ofText (partition '.' field).1)
            (stripFields v [(partition '.' field).2]) ms
        | none => ms
      else ms.filter fun m => decide (m.1 ≠ Str.ofText (partition '.' field).1) := by
  by_cases hdot : '.' ∈ field
  · obtain ⟨head, tail, rfl, hhead⟩ := List.eq_append_cons_of_mem hdot
    rw [partition_append hhead, keys, keyPath_dot hhead]
    by_cases htail : tail = []
    · rw [if_pos htail, if_neg (not_not_intro htail)]
      rfl
    · rw [if_neg htail, if_pos htail, List.map_cons]
      obtain ⟨k, ks, hkeys⟩ : ∃ k ks, keys tail = k :: ks :=
        List.exists_cons_of_ne_nil (keys_ne_nil tail)
      rw [← keys, hkeys, stripPath, ← hkeys]
      · rfl
      · simp
  · rw [partition_of_not_mem hdot, keys, keyPath_of_not_mem hdot]
    rfl

end Optimizer

end AdaptiveGateway
