/-
Which bodies the study accepts.

The representation of a mode is never compared with a body.  Every item is asked for its
number, for the fields it has and for their values, and the whole body for the order of the
numbers and for the count of the optional fields.  `modeValid_iff` says that this finds the
value of the representation and no other, if the numbers of the items are integers.  A float
or a boolean that equals the number of an item is refused.
-/
import AdaptiveGateway.Study.Contract
import AdaptiveGateway.Study.Reference
import AdaptiveGateway.Codec.Quote

namespace AdaptiveGateway
namespace Study

open Codec Python Numeric
open Python.Value

/-! ## What the loop finds -/

/-- What the loop asks of one item. -/
def sound (item : Value) : Bool :=
  isDict item &&
    (!((knownId item).isNone || differs item (knownId item) REQUIRED_FIELDS ||
      REQUIRED_FIELDS.any fun path => (fieldValue item path).isNone) &&
    !differs item (knownId item) OPTIONAL_FIELDS &&
    !extraKeys item ["id", "title", "body", "meta"] &&
    !extraKeys ((fieldAt item ["meta"]).getD .null) ["category", "debug"])

/-- How many of these fields an item has. -/
def coverage (item : Value) (paths : List Text) : Nat :=
  paths.countP fun path => (fieldValue item path).isSome

theorem coverage_le (item : Value) (paths : List Text) : coverage item paths ≤ paths.length :=
  List.countP_le_length

theorem fieldAt_of_not_isDict {item : Value} (h : isDict item = false) {keys : List Text}
    (hkeys : keys ≠ []) : fieldAt item keys = none := by
  cases keys with
  | nil => exact absurd rfl hkeys
  | cons key keys =>
    cases item with
    | dict ms => cases h
    | _ => rfl

theorem coverage_of_not_isDict {item : Value} (h : isDict item = false) (paths : List Text) :
    coverage item paths = 0 := by
  rw [coverage, List.countP_eq_zero]
  intro path _
  rw [fieldValue, fieldAt_of_not_isDict h (splitOn_ne_nil '.' path)]
  exact Bool.false_ne_true

theorem knownId_of_not_isDict {item : Value} (h : isDict item = false) : knownId item = none := by
  rw [knownId, fieldAt_of_not_isDict h (List.cons_ne_nil _ _)]

theorem total_countIn_eq (item : Value) (counts : List (Text × Nat)) :
    total (countIn item counts) = total counts + coverage item (counts.map Prod.fst) := by
  induction counts with
  | nil => rfl
  | cons c counts ih =>
    simp only [total, countIn, coverage, List.map_cons, List.sum_cons, List.countP_cons] at ih ⊢
    rw [ih]
    omega

namespace Tally

theorem valuesCorrect_item (t : Tally) (item : Value) :
    (t.item item).valuesCorrect = (t.valuesCorrect && sound item) := by
  rw [Tally.item, sound]
  cases isDict item with
  | false => simp
  | true => simp [Bool.and_assoc]

theorem ids_item (t : Tally) (item : Value) :
    (t.item item).ids = t.ids ++ (knownId item).toList := by
  rw [Tally.item]
  split
  · rfl
  · next h =>
    rw [knownId_of_not_isDict (Bool.eq_false_iff.mpr h), Option.toList_none, List.append_nil]

theorem total_item {t : Tally} (item : Value) :
    total (t.item item).optional =
      total t.optional + coverage item (t.optional.map Prod.fst) := by
  rw [(t.counters_item item).2]
  split
  · exact total_countIn_eq item _
  · next h => rw [coverage_of_not_isDict (Bool.eq_false_iff.mpr h), Nat.add_zero]

theorem foldl_eq {t : Tally} {n : Nat} (h : t.Counts n) (data : List Value) :
    (data.foldl Tally.item t).valuesCorrect = (t.valuesCorrect && data.all sound) ∧
      (data.foldl Tally.item t).ids = t.ids ++ data.filterMap knownId ∧
      total (data.foldl Tally.item t).optional =
        total t.optional + (data.map fun item => coverage item OPTIONAL_FIELDS).sum := by
  induction data generalizing t n with
  | nil => simp
  | cons item data ih =>
    obtain ⟨hvalues, hids, htotal⟩ := ih (h.item item)
    rw [List.foldl_cons, hvalues, hids, htotal, valuesCorrect_item, ids_item, total_item,
      h.optional_keys]
    refine ⟨by rw [List.all_cons, Bool.and_assoc], ?_, ?_⟩
    · rw [List.append_assoc]
      cases hknown : knownId item <;> simp [hknown]
    · rw [List.map_cons, List.sum_cons, Nat.add_assoc]

end Tally

/-! ## One item -/

theorem fieldAt_member (ms : List (Str × Value)) (key : Text) :
    fieldAt (.dict ms) [key] = member ms (Str.ofText key) := by
  show (member ms (Str.ofText key)).bind some = _
  exact Option.bind_fun_some _

theorem fieldValue_dict (ms : List (Str × Value)) :
    fieldValue (.dict ms) "id" = member ms "id" ∧
    fieldValue (.dict ms) "title" = member ms "title" ∧
    fieldValue (.dict ms) "body" = member ms "body" ∧
    fieldValue (.dict ms) "meta.category" =
      (member ms "meta").bind (fun v => fieldAt v ["category"]) ∧
    fieldValue (.dict ms) "meta.debug" =
      (member ms "meta").bind (fun v => fieldAt v ["debug"]) :=
  ⟨fieldAt_member ms _, fieldAt_member ms _, fieldAt_member ms _, rfl, rfl⟩

theorem getD_payload {index : Nat} (h : index < 100) :
    PAYLOAD.getD index .null = fixtureItem index := by
  rw [List.getD_eq_getElem?_getD, PAYLOAD, List.getElem?_map, List.getElem?_range h]
  rfl

theorem fieldValue_fixtureItem (index : Nat) :
    fieldValue (fixtureItem index) "id" = some (.int index) ∧
    fieldValue (fixtureItem index) "title" = some (fixtureTitle index) ∧
    fieldValue (fixtureItem index) "body" = some fixtureBody ∧
    fieldValue (fixtureItem index) "meta.category" = some (.str "synthetic") ∧
    fieldValue (fixtureItem index) "meta.debug" = some fixtureDebug := by
  refine ⟨rfl, rfl, rfl, rfl, rfl⟩

theorem extraKeys_eq_false {v : Value} {names : List Str} :
    extraKeys v names = false ↔ ∃ ms, v = .dict ms ∧ ms.map Prod.fst ⊆ names := by
  cases v with
  | dict ms => simp [extraKeys, List.subset_def]
  | _ => simp [extraKeys]

theorem knownId_iff {item : Value} {index : Nat} :
    knownId item = some index ↔ index < 100 ∧ fieldAt item ["id"] = some (.int index) := by
  rw [knownId, length_payload]
  split
  next n h =>
    rw [Option.ite_none_right_eq_some, Option.some.injEq, h, Option.some.injEq, Value.int.injEq]
    omega
  next h =>
    constructor
    · intro hnone
      cases hnone
    · intro hid
      exact absurd hid.2 (h _)

theorem differs_eq_false {index : Nat} (h : index < 100) {item : Value} {paths : List Text} :
    differs item (some index) paths = false ↔ ∀ path ∈ paths, ∀ v, fieldValue item path = some v →
      v.eq ((fieldValue (fixtureItem index) path).getD .null) = true := by
  simp only [differs, getD_payload h, List.any_eq_false]
  refine forall₂_congr fun path _ => ?_
  cases fieldValue item path <;> simp

/-- A field that is there with the string of the fixture. -/
theorem eq_some_str {o : Option Value} {s : Str} : o = some (.str s) ↔
    ¬o.isNone = true ∧ ∀ v, o = some v → v.eq (.str s) = true := by
  cases o with
  | none => simp
  | some v => simp [eq_str]

/-- What the loop finds out about a dictionary with a number of the fixture. -/
theorem sound_dict {index : Nat} {ms : List (Str × Value)}
    (hknown : knownId (.dict ms) = some index) : sound (.dict ms) = true ↔
      member ms "title" = some (fixtureTitle index) ∧
      (member ms "meta").bind (fun v => fieldAt v ["category"]) = some (.str "synthetic") ∧
      (∀ v, member ms "body" = some v → v.eq fixtureBody = true) ∧
      (∀ v, (member ms "meta").bind (fun v => fieldAt v ["debug"]) = some v →
        v.eq fixtureDebug = true) ∧
      ms.map Prod.fst ⊆ itemKeys ∧
      ∃ inner, (member ms "meta").getD .null = .dict inner ∧ inner.map Prod.fst ⊆ metaKeys := by
  obtain ⟨hid, htitle, hbody, hcategory, hdebug⟩ := fieldValue_dict ms
  obtain ⟨hid', htitle', hbody', hcategory', hdebug'⟩ := fieldValue_fixtureItem index
  obtain ⟨hlt, hnumber⟩ := knownId_iff.mp hknown
  rw [fieldAt_member] at hnumber
  have hself : Value.eq (.int index) (.int index) = true := int_eq_int.mpr rfl
  simp only [sound, isDict, hknown, Bool.true_and, Bool.and_eq_true, Bool.not_eq_true',
    Bool.or_eq_false_iff, Option.isNone_some, true_and, differs_eq_false hlt, REQUIRED_FIELDS,
    OPTIONAL_FIELDS, List.forall_mem_cons, List.any_eq_false, List.not_mem_nil,
    IsEmpty.forall_iff, implies_true, and_true, hid, htitle, hbody, hcategory, hdebug, hid',
    htitle', hbody', hcategory', hdebug', Option.getD_some, fieldAt_member, hnumber,
    Option.some.injEq, forall_eq', hself, extraKeys_eq_false, eq_some_str, fixtureTitle,
    Value.dict.injEq, exists_eq_left', Bool.false_eq_true, not_false_eq_true]
  constructor
  · rintro ⟨⟨⟨⟨⟨ht, hc⟩, ht', hc'⟩, hb, hd⟩, hkeys⟩, hinner⟩
    exact ⟨⟨ht', ht⟩, ⟨hc', hc⟩, hb, hd, hkeys, hinner⟩
  · rintro ⟨⟨ht', ht⟩, ⟨hc', hc⟩, hb, hd, hkeys, hinner⟩
    exact ⟨⟨⟨⟨⟨ht, hc⟩, ht', hc'⟩, hb, hd⟩, hkeys⟩, hinner⟩

theorem sound_iff {index : Nat} {ms : List (Str × Value)} :
    sound (.dict ms) = true ∧ knownId (.dict ms) = some index ↔
      index < 100 ∧ ∃ inner, Fits index ms inner := by
  constructor
  · rintro ⟨hsound, hknown⟩
    obtain ⟨hlt, hnumber⟩ := knownId_iff.mp hknown
    rw [fieldAt_member] at hnumber
    obtain ⟨htitle, hcategory, hbody, hdebug, hkeys, inner, hinner, hinnerKeys⟩ :=
      (sound_dict hknown).mp hsound
    have hmeta : member ms "meta" = some (.dict inner) := by
      cases hmember : member ms "meta" with
      | none =>
        rw [hmember] at hinner
        cases hinner
      | some v =>
        rw [hmember, Option.getD_some] at hinner
        rw [hinner]
    rw [hmeta, Option.bind_some, fieldAt_member] at hcategory
    simp only [hmeta, Option.bind_some, fieldAt_member] at hdebug
    exact ⟨hlt, inner, hnumber, htitle, hmeta, hcategory, fun v hv => eq_str.mp (hbody v hv),
      fun v hv => eq_str.mp (hdebug v hv), hkeys, hinnerKeys⟩
  · rintro ⟨hlt, inner, h⟩
    have hknown : knownId (.dict ms) = some index :=
      knownId_iff.mpr ⟨hlt, by rw [fieldAt_member, h.id]⟩
    refine ⟨(sound_dict hknown).mpr ⟨h.title, ?_, fun v hv => eq_str.mpr (h.body v hv), ?_, h.keys,
      inner, ?_, h.innerKeys⟩, hknown⟩
    · rw [h.metadata, Option.bind_some, fieldAt_member, h.category]
    · rw [h.metadata, Option.bind_some, fieldAt_member]
      exact fun v hv => eq_str.mpr (h.debug v hv)
    · rw [h.metadata, Option.getD_some]

/-- The optional fields of an item that fits. -/
theorem Fits.coverage_eq {index : Nat} {ms inner : List (Str × Value)} (h : Fits index ms inner) :
    coverage (.dict ms) OPTIONAL_FIELDS =
      (if (member ms "body").isSome then 1 else 0) +
        if (member inner "debug").isSome then 1 else 0 := by
  obtain ⟨-, -, hbody, -, hdebug⟩ := fieldValue_dict ms
  rw [h.metadata, Option.bind_some, fieldAt_member] at hdebug
  simp only [coverage, OPTIONAL_FIELDS, List.countP_cons, List.countP_nil, hbody, hdebug]
  omega

/-- An item whose number is an integer. -/
def Numbered (v : Value) : Prop := ∃ n, fieldAt v ["id"] = some (.int n)

theorem sound_of_not_isDict {v : Value} (h : isDict v = false) : sound v = false := by
  rw [sound, h, Bool.false_and]

theorem knownId_of_sound {v : Value} (h : sound v = true) : (knownId v).isSome = true := by
  cases hknown : knownId v with
  | none => simp [sound, hknown] at h
  | some index => rfl

/-- The loop accepts an item with all of its optional fields, or with none, if it is that
of the reference. -/
theorem item_iff {v : Value} (hv : Keyed v) {index : Nat} (hlt : index < 100) (removal : Bool) :
    (sound v = true ∧ knownId v = some index) ∧
        coverage v OPTIONAL_FIELDS = (if removal then 0 else 2) ↔
      v.eq (referenceItem removal index) = true ∧ Numbered v := by
  cases hdict : isDict v with
  | false =>
    refine iff_of_false (fun h => ?_) (fun h => ?_)
    · rw [sound_of_not_isDict hdict] at h
      exact Bool.false_ne_true h.1.1
    · obtain ⟨-, n, hn⟩ := h
      rw [fieldAt_of_not_isDict hdict (List.cons_ne_nil _ _)] at hn
      cases hn
  | true =>
    obtain ⟨ms, rfl⟩ : ∃ ms, v = .dict ms := by
      cases v with
      | dict ms => exact ⟨ms, rfl⟩
      | _ => cases hdict
    have hfits : (sound (.dict ms) = true ∧ knownId (.dict ms) = some index) ∧
        coverage (.dict ms) OPTIONAL_FIELDS = (if removal then 0 else 2) ↔
          ∃ inner, Fits index ms inner ∧ (if (member ms "body").isSome then 1 else 0) +
            (if (member inner "debug").isSome then 1 else 0) = (if removal then 0 else 2) := by
      rw [sound_iff]
      constructor
      · rintro ⟨⟨_, inner, h⟩, hcoverage⟩
        exact ⟨inner, h, h.coverage_eq.symm.trans hcoverage⟩
      · rintro ⟨inner, h, hcoverage⟩
        exact ⟨⟨hlt, inner, h⟩, h.coverage_eq.trans hcoverage⟩
    rw [hfits, Numbered, fieldAt_member]
    cases removal with
    | true =>
      refine Iff.trans ?_ (eq_strippedItem hv).symm
      refine exists_congr fun inner => and_congr_right fun _ => ?_
      cases member ms "body" <;> cases member inner "debug" <;> simp
    | false =>
      refine Iff.trans ?_ (eq_fixtureItem hv).symm
      refine exists_congr fun inner => and_congr_right fun _ => ?_
      cases member ms "body" <;> cases member inner "debug" <;> simp

/-! ## Lists -/

section

variable {α β : Type}

/-- Items that all have an image, and their images in order. -/
theorem filterMap_eq_iff {f : α → Option β} {xs : List α} {ys : List β}
    (h : ∀ x ∈ xs, (f x).isSome) :
    xs.filterMap f = ys ↔ List.Forall₂ (fun x y => f x = some y) xs ys := by
  induction xs generalizing ys with
  | nil => cases ys <;> simp
  | cons x xs ih =>
    obtain ⟨hx, hxs⟩ := List.forall_mem_cons.mp h
    obtain ⟨y, hy⟩ := Option.isSome_iff_exists.mp hx
    rw [List.filterMap_cons_some hy]
    cases ys with
    | nil => simp
    | cons z zs => rw [List.cons.injEq, ih hxs, List.forall₂_cons, hy, Option.some.injEq]

/-- A sum of terms with a bound reaches the bound if every term does. -/
theorem sum_eq_length_mul {c : α → Nat} {k : Nat} {xs : List α} (hle : ∀ x ∈ xs, c x ≤ k) :
    (xs.map c).sum = xs.length * k ↔ ∀ x ∈ xs, c x = k := by
  induction xs with
  | nil => simp
  | cons x xs ih =>
    obtain ⟨hx, hxs⟩ := List.forall_mem_cons.mp hle
    have hsum : (xs.map c).sum ≤ xs.length * k := by
      have hbound := List.sum_le_card_nsmul (xs.map c) k (by simpa using hxs)
      simpa using hbound
    rw [List.map_cons, List.sum_cons, List.length_cons, List.forall_mem_cons, ← ih hxs,
      Nat.succ_mul]
    omega

theorem forall₂_congr_mem {R S : α → β → Prop} {xs : List α} {ys : List β}
    (h : ∀ x ∈ xs, ∀ y ∈ ys, (R x y ↔ S x y)) :
    List.Forall₂ R xs ys ↔ List.Forall₂ S xs ys := by
  rw [List.forall₂_iff_zip, List.forall₂_iff_zip]
  refine and_congr_right fun _ => forall₂_congr fun x y => ?_
  refine forall_congr' fun hmem => ?_
  obtain ⟨hx, hy⟩ := List.of_mem_zip hmem
  exact h x hx y hy

end

/-! ## The body -/

/-- What is asked of an array that has `n` items, without the optional fields or with them. -/
@[mk_iff]
structure Findings (data : List Value) (n : Nat) (removal : Bool) : Prop where
  sound : data.all sound = true
  distinct : (data.filterMap knownId).dedup.length = data.length
  sorted : data.filterMap knownId = sortedBy id (data.filterMap knownId)
  ids : data.filterMap knownId = List.range n
  optional : (data.map fun v => coverage v OPTIONAL_FIELDS).sum =
    if removal then 0 else n * OPTIONAL_FIELDS.length

theorem sum_coverage {data : List Value} (removal : Bool) :
    (data.map fun v => coverage v OPTIONAL_FIELDS).sum =
        (if removal then 0 else data.length * OPTIONAL_FIELDS.length) ↔
      ∀ v ∈ data, coverage v OPTIONAL_FIELDS = (if removal then 0 else 2) := by
  cases removal with
  | true => simp [List.sum_eq_zero_iff]
  | false => exact sum_eq_length_mul fun v _ => coverage_le v OPTIONAL_FIELDS

/-- The findings of the loop are those of the reference with `n` items. -/
theorem data_iff {data : List Value} (hdata : ∀ v ∈ data, Keyed v) {n : Nat} (hn : n ≤ 100)
    (removal : Bool) :
    Findings data n removal ↔
      Value.eq (.list data) (.list ((List.range n).map (referenceItem removal))) = true ∧
        ∀ v ∈ data, Numbered v := by
  have hitems : Value.eq (.list data) (.list ((List.range n).map (referenceItem removal))) = true ∧
      (∀ v ∈ data, Numbered v) ↔ ((∀ v ∈ data, sound v = true) ∧
        ∀ v ∈ data, coverage v OPTIONAL_FIELDS = (if removal then 0 else 2)) ∧
        List.Forall₂ (fun v index => knownId v = some index) data (List.range n) := by
    rw [Value.eq, eqElems_iff, List.forall₂_map_right_iff, and_comm, ← List.forall₂_and_left,
      and_assoc, ← List.forall₂_and_left, ← List.forall₂_and_left]
    refine forall₂_congr_mem fun v hv index hindex => ?_
    have hlt : index < 100 := (List.mem_range.mp hindex).trans_le hn
    have hitem := item_iff (hdata v hv) hlt removal
    tauto
  rw [hitems]
  constructor
  · rintro ⟨hsound, hdistinct, _, hids, hcoverage⟩
    have hsound : ∀ v ∈ data, sound v = true := List.all_eq_true.mp hsound
    have hlen : data.length = n := by
      rw [← hdistinct, hids, List.nodup_range.dedup, List.length_range]
    rw [← hlen] at hcoverage
    refine ⟨⟨hsound, (sum_coverage removal).mp hcoverage⟩, ?_⟩
    exact (filterMap_eq_iff fun v hv => knownId_of_sound (hsound v hv)).mp hids
  · rintro ⟨⟨hsound, hcoverage⟩, hids⟩
    have hlen : data.length = n := hids.length_eq.trans List.length_range
    rw [← filterMap_eq_iff fun v hv => knownId_of_sound (hsound v hv)] at hids
    have hsorted : sortedBy id (List.range n) = List.range n :=
      sortedBy_eq_of_perm (List.Perm.refl _) (fun a _ b _ hab => hab)
        List.pairwise_le_range
    refine ⟨List.all_eq_true.mpr hsound, ?_, ?_, hids, ?_⟩
    · rw [hids, List.nodup_range.dedup, List.length_range, hlen]
    · rw [hids, hsorted]
    · rw [← hlen]
      exact (sum_coverage removal).mpr hcoverage

/-! ## The observation -/

/-- What is relied on: no dictionary has a key twice, and what a gzip stream begins with
begins no JSON text. -/
structure Decoders.Json (lib : Decoders) : Prop where
  keyed : ∀ {b : Bytes} {v : Value}, lib.loads b = some v → v.Keyed
  compressed : ∀ {b : Bytes}, ([0x1f, 0x8b] : Bytes).isPrefixOf b = true → lib.loads b = none

section

variable (lib : Decoders) (headers : List (Text × Text))

/-- The coding that a response declares. -/
def declaredEncoding : Text :=
  let encoding := lib.lower (lib.strip ((header headers "content-encoding").getD []))
  if encoding = [] then "identity" else encoding

/-- The response has this coding, and the body without it is not longer than the limit. -/
structure Decodes (encoding : Text) (raw decoded : Bytes) : Prop where
  declared : declaredEncoding lib headers = encoding
  body : if encoding = ("gzip" : Text) then lib.gunzip raw = .ok decoded else decoded = raw
  length : decoded.length ≤ MAX_BODY_BYTES

end

section

variable {lib : Decoders} {headers : List (Text × Text)} {mode condition : Text}

theorem compareItems_modeValid {result : Content} {encoding : Text} {data : List Value} :
    (compareItems lib result headers encoding mode condition data).modeValid = true ↔
      Findings data (expectedItems mode condition) (removal mode condition) ∧
      (if encoding = [] then ("identity" : Text) else encoding) =
        expectedEncoding mode condition := by
  obtain ⟨hvalues, hids, htotal⟩ := Tally.foldl_eq counts_start data
  rw [show Tally.start.valuesCorrect = true from rfl, Bool.true_and] at hvalues
  rw [show Tally.start.ids = [] from rfl, List.nil_append] at hids
  rw [show total Tally.start.optional = 0 from rfl, Nat.zero_add] at htotal
  simp only [compareItems, hvalues, hids, htotal, Bool.and_eq_true, decide_eq_true_eq,
    findings_iff, expectedItems, skeleton, removal, expectedEncoding, and_assoc]

theorem expectedItems_le (mode condition : Text) : expectedItems mode condition ≤ 100 := by
  rw [expectedItems, length_payload]
  split <;> omega

theorem declaredEncoding_gzip : declaredEncoding lib headers = ("gzip" : Text) ↔
    lib.lower (lib.strip ((header headers "content-encoding").getD [])) = ("gzip" : Text) := by
  have hne : ("identity" : Text) ≠ "gzip" ∧ ([] : Text) ≠ "gzip" := by decide
  simp only [declaredEncoding]
  split
  next h => exact iff_of_false hne.1 fun hgzip => hne.2 (h.symm.trans hgzip)
  next => exact Iff.rfl

theorem declaredEncoding_identity : declaredEncoding lib headers = ("identity" : Text) ↔
    lib.lower (lib.strip ((header headers "content-encoding").getD [])) ∈
      (["", "identity"] : List Text) := by
  simp only [declaredEncoding]
  split
  next h =>
    rw [h]
    exact iff_of_true rfl List.mem_cons_self
  next h =>
    rw [List.mem_cons, List.mem_singleton]
    exact ⟨.inr, fun hmem => hmem.resolve_left h⟩

/-- A body with a value is decoded by the study if it is one in the coding that the
response declares. -/
theorem decodes_iff (hlib : lib.Json) {raw decoded : Bytes} {v : Value}
    (hloads : lib.loads decoded = some v) :
    Decodes lib headers (expectedEncoding mode condition) raw decoded ↔
      decodeBody lib (lib.lower (lib.strip ((header headers "content-encoding").getD []))) raw =
          .ok decoded ∧ declaredEncoding lib headers = expectedEncoding mode condition := by
  have hne : ("identity" : Text) ≠ "gzip" := by decide
  constructor
  · rintro ⟨hdeclared, hbody, hlength⟩
    refine ⟨decodeBody_iff.mpr ⟨hlength, ?_⟩, hdeclared⟩
    by_cases hgzip : expectedEncoding mode condition = ("gzip" : Text)
    · rw [if_pos hgzip] at hbody
      exact .inl ⟨declaredEncoding_gzip.mp (hdeclared.trans hgzip), hbody⟩
    · rw [if_neg hgzip] at hbody
      have hidentity : expectedEncoding mode condition = ("identity" : Text) := by
        rw [expectedEncoding] at hgzip ⊢
        split at hgzip
        next => exact absurd rfl hgzip
        next h => exact if_neg h
      refine .inr ⟨declaredEncoding_identity.mp (hdeclared.trans hidentity), ?_, hbody⟩
      -- compressed bytes are no JSON text
      refine Bool.eq_false_iff.mpr fun hcompressed => ?_
      rw [hbody, hlib.compressed hcompressed] at hloads
      cases hloads
  · rintro ⟨hbody, hdeclared⟩
    obtain ⟨hlength, hcoding⟩ := decodeBody_iff.mp hbody
    refine ⟨hdeclared, ?_, hlength⟩
    rw [← hdeclared]
    rcases hcoding with ⟨hgzip, hgunzip⟩ | ⟨hidentity, -, hraw⟩
    · rwa [if_pos (declaredEncoding_gzip.mpr hgzip)]
    · rwa [if_neg (by rw [declaredEncoding_identity.mpr hidentity]; exact hne)]

/-- The findings about an array that was decoded. -/
theorem modeValid_of_decoded {raw decoded : Bytes} {data : List Value}
    (hdecode : decodeBody lib (lib.lower (lib.strip ((header headers "content-encoding").getD [])))
      raw = .ok decoded) (hloads : lib.loads decoded = some (.list data)) :
    (contentObservation lib raw headers mode condition).modeValid = true ↔
      Findings data (expectedItems mode condition) (removal mode condition) ∧
      declaredEncoding lib headers = expectedEncoding mode condition := by
  simp only [contentObservation, hdecode, hloads]
  exact compareItems_modeValid

end

/-! ## The setting of the tests -/

/-- The bytes that a gzip stream begins with begin no text. -/
theorem utf8Decode_compressed {b : Bytes} (h : ([0x1f, 0x8b] : Bytes).isPrefixOf b = true) :
    utf8Decode b = none := by
  obtain ⟨rest, rfl⟩ := List.isPrefixOf_iff_prefix.mp h
  refine Option.eq_none_iff_forall_ne_some.mpr fun t ht => ?_
  have hhead : ∀ {c t x xs}, utf8 (c :: t) = x :: xs →
      ∃ ys, String.utf8EncodeChar c = x :: ys ∧ ys ++ utf8 t = xs := by
    intro c t x xs hbytes
    have hlength : 0 < (String.utf8EncodeChar c).length := by
      rw [String.length_utf8EncodeChar]
      exact c.utf8Size_pos
    obtain ⟨y, ys, hc⟩ := List.exists_cons_of_length_pos hlength
    rw [utf8, List.flatMap_cons, hc, List.cons_append] at hbytes
    injection hbytes with hx hxs
    exact ⟨ys, by rw [hc, hx], hxs⟩
  have hbytes := utf8_of_utf8Decode ht
  cases t with
  | nil => cases hbytes
  | cons c t =>
    obtain ⟨ys, hc, hys⟩ := hhead hbytes
    have hchar : c = Char.ofNat 0x1f :=
      Url.eq_of_mem_utf8EncodeChar (b := 0x1f) (by rw [hc]; exact List.mem_cons_self) (by decide)
    have hsingle : String.utf8EncodeChar c = [0x1f] := by rw [hchar]; decide
    rw [hsingle] at hc
    cases hc
    cases t with
    | nil => cases hys
    | cons d t =>
      obtain ⟨zs, hd, -⟩ := hhead (hys.trans rfl)
      have hfirst := UInt8.isUTF8FirstByte_getElem_zero_utf8EncodeChar (c := d)
      simp only [hd, List.getElem_cons_zero] at hfirst
      revert hfirst
      decide

theorem mockJson_json : mockJson.Json where
  keyed := by
    intro b v h
    obtain ⟨t, -, -, ht⟩ := mockJson_some h
    exact keyed_loads ht
  compressed := by
    intro b h
    show (utf8Decode b).bind _ = none
    rw [utf8Decode_compressed h, Option.bind_none]

/-- The item with this index and this number. -/
def numbered (number : Value) (index : Nat) : Value :=
  .dict [("id", number), ("title", fixtureTitle index),
    ("meta", .dict [("category", .str "synthetic")])]

/-- The stripped items, with this number for the first of them. -/
def numberedFrom (first : Value) : List Value :=
  numbered first 0 :: (List.range' 1 99).map strippedItem

/-- The body that a client reads. -/
def mockBody (first : Value) : Bytes := utf8 (dumps mockRepr [] (.list (numberedFrom first)))

section

variable {first : Value}

theorem eq_numbered {index : Nat} (h : first.eq (.int index) = true) :
    Value.eq (numbered first index) (strippedItem index) = true := by
  obtain ⟨-, hnames, -⟩ := nodup_names
  have hcategory : (["category"] : List Str).Nodup := List.nodup_singleton _
  rw [numbered, strippedItem, dict_eq_dict (by exact hnames) (by exact hnames)]
  simp only [List.forall_mem_cons, List.not_mem_nil, IsEmpty.forall_iff, implies_true, and_true]
  refine ⟨List.Subset.refl _, ⟨first, rfl, h⟩, ⟨_, rfl, eq_str.mpr rfl⟩, _, rfl, ?_⟩
  rw [dict_eq_dict (by exact hcategory) (by exact hcategory)]
  simp only [List.forall_mem_cons, List.not_mem_nil, IsEmpty.forall_iff, implies_true, and_true]
  exact ⟨List.Subset.refl _, _, rfl, eq_str.mpr rfl⟩

theorem eq_numberedFrom (h : first.eq (.int 0) = true) :
    Value.eq (.list (numberedFrom first)) (reference "removal" "GOOD") = true := by
  have hrange : List.range 100 = 0 :: List.range' 1 99 := by decide
  have href : reference "removal" "GOOD" = .list ((List.range 100).map strippedItem) :=
    stripFields_payload
  rw [href, hrange, List.map_cons, numberedFrom, Value.eq, eqElems_iff]
  refine .cons (eq_numbered h) (List.forall₂_same.mpr fun v hv => ?_)
  obtain ⟨index, -, rfl⟩ := List.mem_map.mp hv
  exact eq_numbered (int_eq_int.mpr rfl)

theorem plain_numbered (h : Plain first) (index : Nat) : Plain (numbered first index) :=
  ⟨nodup_names.2.1, scalar_ofText _, h, scalar_ofText _, scalar_ofText _, scalar_ofText _,
    ⟨List.nodup_singleton _, scalar_ofText _, scalar_ofText _, trivial⟩, trivial⟩

theorem plain_numberedFrom (h : Plain first) : Plain (.list (numberedFrom first)) := by
  have hrest : ∀ indices : List Nat, PlainElems (indices.map strippedItem) := by
    intro indices
    induction indices with
    | nil => trivial
    | cons index indices ih =>
      have hnumber : Plain (.int index) := trivial
      exact ⟨plain_numbered hnumber index, ih⟩
  exact ⟨plain_numbered h 0, hrest _⟩

theorem loads_mockBody (h : Plain first) :
    mockJson.loads (mockBody first) = some (.list (numberedFrom first)) :=
  mockJson_dumps Rfc8259.ws_nil (plain_numberedFrom h)

end

/-- The body in which the first number is this value is one in the coding of the mode. -/
theorem decodes_mockBody {first : Value} (h : (mockBody first).length ≤ MAX_BODY_BYTES) :
    Decodes mockJson [] (expectedEncoding "removal" "GOOD") (mockBody first) (mockBody first) :=
  ⟨by decide, (if_neg (by decide)).mpr rfl, h⟩

/-! ## What is accepted -/

/-- The study accepts the representation that the gateway makes of the fixture, in its
coding, with integers for the numbers of the items.  It accepts nothing else. -/
theorem modeValid_iff {lib : Decoders} {headers : List (Text × Text)} {mode condition : Text}
    (hlib : lib.Json) (raw : Bytes) :
    (contentObservation lib raw headers mode condition).modeValid = true ↔
      ∃ decoded data, Decodes lib headers (expectedEncoding mode condition) raw decoded ∧
        lib.loads decoded = some (.list data) ∧
        Value.eq (.list data) (reference mode condition) = true ∧ ∀ v ∈ data, Numbered v := by
  have hdata : ∀ {decoded data}, lib.loads decoded = some (.list data) → _ := fun hloads =>
    data_iff (keyedElems_iff.mp (hlib.keyed hloads)) (expectedItems_le mode condition)
      (removal mode condition)
  rw [reference_eq]
  constructor
  · intro hvalid
    cases hdecode : decodeBody lib
        (lib.lower (lib.strip ((header headers "content-encoding").getD []))) raw with
    | error category =>
      simp only [contentObservation, hdecode] at hvalid
      cases hvalid
    | ok decoded =>
      cases hloads : lib.loads decoded with
      | none =>
        simp only [contentObservation, hdecode, hloads] at hvalid
        cases hvalid
      | some v =>
        cases v with
        | list data =>
          obtain ⟨hfound, hdeclared⟩ := (modeValid_of_decoded hdecode hloads).mp hvalid
          exact ⟨decoded, data, (decodes_iff hlib hloads).mpr ⟨hdecode, hdeclared⟩, hloads,
            (hdata hloads).mp hfound⟩
        | _ =>
          simp only [contentObservation, hdecode, hloads] at hvalid
          cases hvalid
  · rintro ⟨decoded, data, hdecodes, hloads, hequal⟩
    obtain ⟨hdecode, hdeclared⟩ := (decodes_iff hlib hloads).mp hdecodes
    exact (modeValid_of_decoded hdecode hloads).mpr ⟨(hdata hloads).mpr hequal, hdeclared⟩

theorem modeValid_iff_stripped :
    (contentObservation mockJson (mockBody (.int 0)) [] "removal" "GOOD").modeValid = true := by
  refine (modeValid_iff mockJson_json (mockBody (.int 0))).mpr
    ⟨_, _, decodes_mockBody (by decide +kernel), loads_mockBody trivial,
      eq_numberedFrom (int_eq_int.mpr rfl), ?_⟩
  refine List.forall_mem_cons.mpr ⟨⟨0, rfl⟩, fun v hv => ?_⟩
  obtain ⟨index, -, rfl⟩ := List.mem_map.mp hv
  exact ⟨index, rfl⟩

/-- A body that is that of the reference but for a float, which equals the number of its
item, is refused. -/
theorem float_number_refused :
    ¬((contentObservation mockJson (mockBody (.float .zero)) [] "removal" "GOOD").modeValid = true ↔
      ∃ decoded v, Decodes mockJson [] (expectedEncoding "removal" "GOOD")
          (mockBody (.float .zero)) decoded ∧
        mockJson.loads decoded = some v ∧ v.eq (reference "removal" "GOOD") = true) := by
  have hloads : mockJson.loads (mockBody (.float .zero)) = _ := loads_mockBody rfl
  have hlength : (mockBody (.float .zero)).length ≤ MAX_BODY_BYTES := by decide +kernel
  have hdecodes := decodes_mockBody hlength
  intro hiff
  have hvalid := hiff.mpr ⟨_, _, hdecodes, hloads, eq_numberedFrom (by decide)⟩
  obtain ⟨hdecode, -⟩ := (decodes_iff mockJson_json hloads).mp hdecodes
  have hsound := ((modeValid_of_decoded hdecode hloads).mp hvalid).1.sound
  have hfirst := knownId_of_sound (List.all_eq_true.mp hsound _ List.mem_cons_self)
  revert hfirst
  decide

end Study
end AdaptiveGateway
