/-
What the study takes for the representation of a mode.

The gateway makes it of the fixture.  Every item is then that of the fixture, or what is
left of it without its optional fields, and a dictionary equals such an item if it has its
values, the optional ones or none of them, and no other keys.
-/
import AdaptiveGateway.Study.Content
import AdaptiveGateway.Optimizer.Dispatch
import AdaptiveGateway.Optimizer.Stripping

namespace AdaptiveGateway
namespace Study

open Codec Python Numeric
open Python.Value
open Optimizer (keys makeSkeleton onDicts onDictsElems_eq stripFields stripPath truncate)

/-! ## The reference -/

section

variable (mode condition : Text)

def removal : Bool :=
  decide (mode ∈ (["removal", "combined"] : List Text) ∨
    mode = ("adaptive" : Text) ∧ condition ≠ ("GOOD" : Text))

def skeleton : Bool := decide (mode = ("adaptive" : Text) ∧ condition = ("POOR" : Text))

def expectedItems : Nat := if skeleton mode condition then 10 else PAYLOAD.length

def expectedEncoding : Text :=
  if mode ∈ (["compression", "combined"] : List Text) ∨
    mode = ("adaptive" : Text) ∧ condition ≠ ("GOOD" : Text) then "gzip" else "identity"

/-- What the gateway makes of the fixture. -/
def reference : Value :=
  if skeleton mode condition then makeSkeleton (.list PAYLOAD) OPTIONAL_FIELDS
  else if removal mode condition then stripFields (.list PAYLOAD) OPTIONAL_FIELDS
  else .list PAYLOAD

end

/-- The mode and the tier of a request decide on the body as the study expects it. -/
theorem decisions_eq (mode : ResponseMode) {quality : Proxy.NetworkQuality}
    (h : quality ≠ .unknown) :
    skeleton mode.value quality.value = Optimizer.usesSkeleton mode quality false ∧
    removal mode.value quality.value =
      (Optimizer.removesFields mode quality false || Optimizer.usesSkeleton mode quality false) ∧
    (expectedEncoding mode.value quality.value = ("gzip" : Text) ↔
      Optimizer.compresses mode quality = true) := by
  cases quality with
  | unknown => exact absurd rfl h
  | good => cases mode <;> decide
  | degraded => cases mode <;> decide
  | poor => cases mode <;> decide

/-- An item without its optional fields. -/
def strippedItem (index : Nat) : Value :=
  .dict [("id", .int index),
    ("title", .str (.ofText ("item ".toList ++ intText index))),
    ("meta", .dict [("category", .str "synthetic")])]

def referenceItem (removal : Bool) (index : Nat) : Value :=
  if removal then strippedItem index else fixtureItem index

theorem keys_optional : keys "body" = [Str.ofText "body".toList] ∧
    keys "meta.debug" = [Str.ofText "meta".toList, Str.ofText "debug".toList] := ⟨rfl, rfl⟩

theorem names_ne : ("id" : Str) ≠ "body" ∧ ("title" : Str) ≠ "body" ∧ ("meta" : Str) ≠ "body" ∧
    ("id" : Str) ≠ "meta" ∧ ("title" : Str) ≠ "meta" ∧ ("category" : Str) ≠ "debug" := by
  decide

theorem onDicts_fixtureItem (index : Nat) :
    onDicts (fun ms => OPTIONAL_FIELDS.foldl (fun ms field => stripPath (keys field) ms) ms)
      (fixtureItem index) = strippedItem index := by
  obtain ⟨hib, htb, hmb, him, htm, hcd⟩ := names_ne
  obtain ⟨hbody, hdebug⟩ := keys_optional
  simp only [OPTIONAL_FIELDS, List.foldl_cons, List.foldl_nil, hbody, hdebug, stripPath,
    fixtureItem, strippedItem, onDicts, ne_eq, decide_not, Bool.not_true, Bool.not_false,
    List.filter_cons, List.filter_nil, Dict.lookup, Dict.assign, hib, htb, hmb, him, htm, hcd,
    decide_true, decide_false, if_true, if_false, Bool.false_eq_true]

theorem truncate_strippedItem (index : Nat) :
    truncate (strippedItem index) = strippedItem index := by
  simp only [truncate, strippedItem, Value.cut, cutMembers]

theorem stripFields_payload :
    stripFields (.list PAYLOAD) OPTIONAL_FIELDS = .list ((List.range 100).map strippedItem) := by
  have hfields : OPTIONAL_FIELDS ≠ [] := List.cons_ne_nil _ _
  rw [stripFields, if_neg hfields, onDicts, onDictsElems_eq,
    PAYLOAD, List.map_map]
  exact congrArg Value.list (List.map_congr_left fun index _ => onDicts_fixtureItem index)

theorem makeSkeleton_payload :
    makeSkeleton (.list PAYLOAD) OPTIONAL_FIELDS = .list ((List.range 10).map strippedItem) := by
  rw [makeSkeleton, stripFields_payload, truncate, Value.cut, cutElems_eq,
    ← List.map_take, List.take_range, List.map_map]
  exact congrArg Value.list (List.map_congr_left fun index _ => truncate_strippedItem index)

theorem reference_eq (mode condition : Text) : reference mode condition =
    .list ((List.range (expectedItems mode condition)).map
      (referenceItem (removal mode condition))) := by
  have hremoval : skeleton mode condition = true → removal mode condition = true := by
    intro h
    obtain ⟨hmode, hcondition⟩ := of_decide_eq_true h
    refine decide_eq_true (.inr ⟨hmode, ?_⟩)
    rw [hcondition]
    decide
  rw [reference, expectedItems, length_payload]
  cases hskeleton : skeleton mode condition with
  | true =>
    rw [if_pos rfl, if_pos rfl, makeSkeleton_payload, hremoval hskeleton]
    rfl
  | false =>
    rw [if_neg Bool.false_ne_true, if_neg Bool.false_ne_true]
    cases removal mode condition with
    | true =>
      rw [if_pos rfl, stripFields_payload]
      rfl
    | false => rfl

/-! ## Equal items -/

abbrev member (ms : List (Str × Value)) (key : Str) : Option Value := Dict.lookup key ms

def fixtureTitle (index : Nat) : Value := .str (.ofText ("item ".toList ++ intText index))

def fixtureBody : Value := .str (.ofText (repeated "optional-text-" 160))

def fixtureDebug : Value := .str (.ofText (repeated "diagnostic-" 30))

def itemKeys : List Str := ["id", "title", "body", "meta"]

def metaKeys : List Str := ["category", "debug"]

/-- The item has the values of the fixture, and may lack its optional fields. -/
structure Fits (index : Nat) (ms inner : List (Str × Value)) : Prop where
  id : member ms "id" = some (.int index)
  title : member ms "title" = some (fixtureTitle index)
  metadata : member ms "meta" = some (.dict inner)
  category : member inner "category" = some (.str "synthetic")
  body : ∀ v, member ms "body" = some v → v = fixtureBody
  debug : ∀ v, member inner "debug" = some v → v = fixtureDebug
  keys : ms.map Prod.fst ⊆ itemKeys
  innerKeys : inner.map Prod.fst ⊆ metaKeys

theorem member_eq_none {ms : List (Str × Value)} {key : Str} :
    member ms key = none ↔ key ∉ ms.map Prod.fst := by
  constructor
  · intro hnone hkey
    obtain ⟨m, hm, rfl⟩ := List.mem_map.mp hkey
    obtain ⟨v, hv⟩ := Dict.exists_lookup_of_mem (k := m.1) (v := m.2) hm
    cases hnone.symm.trans hv
  · intro hkey
    refine Option.eq_none_iff_forall_ne_some.mpr fun v hv => hkey ?_
    exact List.mem_map.mpr ⟨_, Dict.mem_of_lookup hv, rfl⟩

/-- Without one of the keys, the others are left. -/
theorem keys_without {ms : List (Str × Value)} {key : Str} {names : List Str}
    (h : ms.map Prod.fst ⊆ key :: names) (hnone : member ms key = none) :
    ms.map Prod.fst ⊆ names := by
  intro name hname
  refine (List.mem_cons.mp (h hname)).resolve_left fun heq => ?_
  exact member_eq_none.mp hnone (heq ▸ hname)

theorem nodup_names : (["id", "title", "body", "meta"] : List Str).Nodup ∧
    (["id", "title", "meta"] : List Str).Nodup ∧ (["debug", "category"] : List Str).Nodup := by
  decide

theorem subset_names :
    itemKeys ⊆ ("body" : Str) :: (["id", "title", "meta"] : List Str) ∧
    metaKeys ⊆ ("debug" : Str) :: (["category"] : List Str) ∧
    (["id", "title", "meta"] : List Str) ⊆ itemKeys ∧ (["category"] : List Str) ⊆ metaKeys ∧
    (["debug", "category"] : List Str) ⊆ metaKeys ∧ metaKeys ⊆ ["debug", "category"] := by
  decide

theorem eq_fixtureItem {index : Nat} {ms : List (Str × Value)} (hms : Keyed (.dict ms)) :
    Value.eq (.dict ms) (fixtureItem index) = true ∧ (∃ n, member ms "id" = some (.int n)) ↔
      ∃ inner, Fits index ms inner ∧ (member ms "body").isSome ∧ (member inner "debug").isSome := by
  obtain ⟨hnames, -, hinnerNames⟩ := nodup_names
  rw [fixtureItem, dict_eq_dict hms.1 (by exact hnames)]
  simp only [List.forall_mem_cons, List.map_cons, List.map_nil, List.not_mem_nil,
    IsEmpty.forall_iff, implies_true, and_true, exists_eq_str]
  rw [exists_eq_dict hms (by exact hinnerNames)]
  simp only [List.forall_mem_cons, List.map_cons, List.map_nil, List.not_mem_nil,
    IsEmpty.forall_iff, implies_true, and_true, exists_eq_str]
  obtain ⟨-, -, -, -, hsub, hsub'⟩ := subset_names
  constructor
  · intro ⟨⟨hkeys, hid, htitle, hbody, inner, hmeta, hinner, hdebug, hcategory⟩, hint⟩
    have hfits : Fits index ms inner := ⟨exists_eq_int.mp ⟨hid, hint⟩, htitle, hmeta, hcategory,
      fun v hv => Option.some.inj (hv.symm.trans hbody),
      fun v hv => Option.some.inj (hv.symm.trans hdebug), hkeys, List.Subset.trans hinner hsub⟩
    exact ⟨inner, hfits, Option.isSome_of_eq_some hbody, Option.isSome_of_eq_some hdebug⟩
  · intro ⟨inner, h, hbody, hdebug⟩
    obtain ⟨body, hbody⟩ := Option.isSome_iff_exists.mp hbody
    obtain ⟨debug, hdebug⟩ := Option.isSome_iff_exists.mp hdebug
    obtain rfl := h.body body hbody
    obtain rfl := h.debug debug hdebug
    obtain ⟨hid, hint⟩ := exists_eq_int.mpr h.id
    exact ⟨⟨h.keys, hid, h.title, hbody, inner, h.metadata,
      List.Subset.trans h.innerKeys hsub', hdebug, h.category⟩, hint⟩

theorem eq_strippedItem {index : Nat} {ms : List (Str × Value)} (hms : Keyed (.dict ms)) :
    Value.eq (.dict ms) (strippedItem index) = true ∧ (∃ n, member ms "id" = some (.int n)) ↔
      ∃ inner, Fits index ms inner ∧ member ms "body" = none ∧ member inner "debug" = none := by
  obtain ⟨-, hnames, -⟩ := nodup_names
  rw [strippedItem, dict_eq_dict hms.1 (by exact hnames)]
  simp only [List.forall_mem_cons, List.map_cons, List.map_nil, List.not_mem_nil,
    IsEmpty.forall_iff, implies_true, and_true, exists_eq_str]
  rw [exists_eq_dict hms (by exact List.nodup_singleton _)]
  simp only [List.forall_mem_cons, List.map_cons, List.map_nil, List.not_mem_nil,
    IsEmpty.forall_iff, implies_true, and_true, exists_eq_str]
  obtain ⟨hbodySub, hdebugSub, hsub, hinnerSub, -, -⟩ := subset_names
  constructor
  · intro ⟨⟨hkeys, hid, htitle, inner, hmeta, hinner, hcategory⟩, hint⟩
    have hbody : member ms "body" = none :=
      member_eq_none.mpr fun h => absurd (hkeys h) (by decide)
    have hdebug : member inner "debug" = none :=
      member_eq_none.mpr fun h => absurd (hinner h) (by decide)
    have hfits : Fits index ms inner := ⟨exists_eq_int.mp ⟨hid, hint⟩, htitle, hmeta, hcategory,
      fun v hv => (by cases hbody.symm.trans hv), fun v hv => (by cases hdebug.symm.trans hv),
      List.Subset.trans hkeys hsub, List.Subset.trans hinner hinnerSub⟩
    exact ⟨inner, hfits, hbody, hdebug⟩
  · intro ⟨inner, h, hbody, hdebug⟩
    obtain ⟨hid, hint⟩ := exists_eq_int.mpr h.id
    exact ⟨⟨keys_without (List.Subset.trans h.keys hbodySub) hbody, hid, h.title, inner, h.metadata,
      keys_without (List.Subset.trans h.innerKeys hdebugSub) hdebug, h.category⟩, hint⟩

end Study
end AdaptiveGateway
