/-
What the study says about the body of a response.

The fixture is known, so every item of a body is compared with the one of its number.  A
field that nothing could be found out about stays null.

What a response of an item may lack is counted by field: the counters of the optional and
of the required fields go up by one at most for every item of the body.
-/
import AdaptiveGateway.Study.Rows
import AdaptiveGateway.Python.Grouping
import AdaptiveGateway.Codec.Decimal

namespace AdaptiveGateway
namespace Study

open Codec Python Numeric

/-! ## The fixture -/

def REQUIRED_FIELDS : List Text := ["id", "title", "meta.category"]

def OPTIONAL_FIELDS : List Text := ["body", "meta.debug"]

def repeated (t : Text) (n : Nat) : Text := (List.replicate n t).flatten

def fixtureItem (index : Nat) : Value :=
  .dict [("id", .int index),
    ("title", .str (.ofText ("item ".toList ++ intText index))),
    ("body", .str (.ofText (repeated "optional-text-" 160))),
    ("meta", .dict [("debug", .str (.ofText (repeated "diagnostic-" 30))),
      ("category", .str "synthetic")])]

def PAYLOAD : List Value := (List.range 100).map fixtureItem

def fieldAt : Value → List Text → Option Value
  | v, [] => some v
  | .dict ms, key :: keys => (Dict.lookup (Str.ofText key) ms).bind fun v => fieldAt v keys
  | _, _ :: _ => none

/-- `field_value(item, path)`; `none` is `(False, None)`. -/
def fieldValue (item : Value) (path : Text) : Option Value := fieldAt item (splitOn '.' path)

/-! ## Decoding -/

def MAX_BODY_BYTES : Nat := 8388608

/-- The library calls.  `gunzip` is `stream.read(MAX_BODY_BYTES + 1)` of a gzip stream, where
`some message` is a `ValueError` and `none` any other error that is caught; `loads` is
`json.loads` without the constants, `none` for an error. -/
structure Decoders where
  sha256 : Bytes → Text
  gunzip : Bytes → Except (Option Text) Bytes
  loads : Bytes → Option Value
  strip : Text → Text
  lower : Text → Text

/-- What is relied on: every item of an array takes a byte of its text. -/
structure Decoders.Sound (lib : Decoders) : Prop where
  items : ∀ {b : Bytes} {xs : List Value}, lib.loads b = some (.list xs) → xs.length ≤ b.length

section

variable (lib : Decoders)

/-- The body without its encoding, or the category of the error. -/
def decodeBody (encoding : Text) (raw : Bytes) : Except Text Bytes :=
  let decoded : Except (Option Text) Bytes :=
    if encoding = ("gzip" : Text) then lib.gunzip raw
    else if encoding ∈ (["", "identity"] : List Text) then
      if ([0x1f, 0x8b] : Bytes).isPrefixOf raw then .error (some "unlabelled_gzip") else .ok raw
    else .error (some "unsupported_content_encoding")
  match decoded with
  | .error message => .error (message.getD "invalid_gzip".toList)
  | .ok decoded =>
    if MAX_BODY_BYTES < decoded.length then .error "decoded_body_limit" else .ok decoded

/-! ## The items -/

structure Tally where
  required : List (Text × Nat)
  optional : List (Text × Nat)
  valuesCorrect : Bool
  requiredCorrect : Bool
  ids : List Nat

def Tally.start : Tally where
  required := REQUIRED_FIELDS.map fun path => (path, 0)
  optional := OPTIONAL_FIELDS.map fun path => (path, 0)
  valuesCorrect := true
  requiredCorrect := true
  ids := []

/-- The number of an item of the fixture. -/
def knownId (item : Value) : Option Nat :=
  match fieldAt item ["id"] with
  | some (.int n) => if 0 ≤ n ∧ n < PAYLOAD.length then some n.toNat else none
  | _ => none

/-- One of the fields is there and has not the value of the fixture. -/
def differs (item : Value) (known : Option Nat) (paths : List Text) : Bool :=
  match known with
  | none => false
  | some i => paths.any fun path =>
    match fieldValue item path with
    | none => false
    | some v => !v.eq ((fieldValue (PAYLOAD.getD i .null) path).getD .null)

/-- `set(v) - names` -/
def extraKeys (v : Value) (names : List Str) : Bool :=
  match v with
  | .dict ms => ms.any fun m => decide (m.1 ∉ names)
  | _ => true

def countIn (item : Value) (counts : List (Text × Nat)) : List (Text × Nat) :=
  counts.map fun c => (c.1, c.2 + if (fieldValue item c.1).isSome then 1 else 0)

def isDict : Value → Bool
  | .dict _ => true
  | _ => false

/-- The body of the loop over the items. -/
def Tally.item (t : Tally) (item : Value) : Tally :=
  if isDict item then
    let known := knownId item
    let missing := REQUIRED_FIELDS.any fun path => (fieldValue item path).isNone
    let wrong := known.isNone || differs item known REQUIRED_FIELDS || missing
    { required := countIn item t.required
      optional := countIn item t.optional
      valuesCorrect := t.valuesCorrect && !wrong && !differs item known OPTIONAL_FIELDS &&
        !extraKeys item ["id", "title", "body", "meta"] &&
        !extraKeys ((fieldAt item ["meta"]).getD .null) ["category", "debug"]
      requiredCorrect := t.requiredCorrect && !wrong
      ids := t.ids ++ known.toList }
  else { t with valuesCorrect := false, requiredCorrect := false }

def total (counts : List (Text × Nat)) : Nat := (counts.map Prod.snd).sum

/-! ## The observation -/

structure Content where
  encodedSha256 : Option Text
  decodedBytes : Option Nat := none
  decodedSha256 : Option Text := none
  encodingValid : Bool := false
  validationError : Option Text := none
  jsonValid : Option Bool := none
  itemCount : Option Nat := none
  itemRetention : Option Binary64 := none
  requiredPresent : Option Nat := none
  optionalPresent : Option Nat := none
  requiredByField : Option (List (Text × Nat)) := none
  optionalByField : Option (List (Text × Nat)) := none
  requiredValuesPreserved : Option Bool := none
  fieldCoverage : Option Binary64 := none
  reduced : Option Bool := none
  fixtureValid : Bool := false
  metadataValid : Bool := false
  modeValid : Bool := false

/-- `m / n` -/
def ratio (m n : Nat) : Binary64 := .ofRat (m / n)

def header (headers : List (Text × Text)) (name : Text) : Option Text := Dict.lookup name headers

/-- `headers.get("content-type", "").split(";", 1)[0].lower()` -/
def mediaType (headers : List (Text × Text)) : Text :=
  lib.lower (((header headers "content-type").getD []).takeWhile (· != ';'))

/-- The rest of the observation, for an array. -/
def compareItems (result : Content) (headers : List (Text × Text)) (encoding mode condition : Text)
    (data : List Value) : Content :=
  let t := data.foldl Tally.item .start
  let valuesCorrect := t.valuesCorrect && decide (t.ids.dedup.length = data.length) &&
    decide (t.ids = sortedBy id t.ids)
  let requiredN := total t.required
  let optionalN := total t.optional
  let reduced := decide (data.length < PAYLOAD.length ∨
    optionalN < PAYLOAD.length * OPTIONAL_FIELDS.length)
  let removal := decide (mode ∈ (["removal", "combined"] : List Text) ∨
    mode = ("adaptive" : Text) ∧ condition ≠ ("GOOD" : Text))
  let skeleton := decide (mode = ("adaptive" : Text) ∧ condition = ("POOR" : Text))
  let expectedItems := if skeleton then 10 else PAYLOAD.length
  let expectedEncoding : Text :=
    if mode ∈ (["compression", "combined"] : List Text) ∨
      mode = ("adaptive" : Text) ∧ condition ≠ ("GOOD" : Text) then "gzip" else "identity"
  let actualEncoding := if encoding = [] then ("identity" : Text) else encoding
  let expectedAdaptation : Text :=
    if skeleton then "skeleton" else if removal then "stripped" else "none"
  let fixtureValid := valuesCorrect && decide (0 < data.length)
  { result with
    itemCount := some data.length
    itemRetention := some (ratio data.length PAYLOAD.length)
    requiredPresent := some requiredN
    optionalPresent := some optionalN
    requiredByField := some t.required
    optionalByField := some t.optional
    requiredValuesPreserved := some t.requiredCorrect
    fieldCoverage := some (ratio (requiredN + optionalN)
      (PAYLOAD.length * (REQUIRED_FIELDS.length + OPTIONAL_FIELDS.length)))
    reduced := some reduced
    fixtureValid := fixtureValid
    modeValid := valuesCorrect && decide (t.ids = List.range expectedItems) &&
      decide (optionalN = if removal then 0 else expectedItems * OPTIONAL_FIELDS.length) &&
      decide (actualEncoding = expectedEncoding)
    metadataValid := decide (header headers "x-response-mode" = some mode ∧
      header headers "x-network-quality" = some condition ∧
      header headers "x-cache-status" = some ("BYPASS" : Text) ∧
      header headers "x-adaptive-mode" = some expectedAdaptation ∧
      header headers "x-response-completeness" =
        some (if reduced then ("reduced" : Text) else "full") ∧
      (mediaType lib headers = ("application/json" : Text) ∨
        ("+json" : Text).isSuffixOf (mediaType lib headers)))
    validationError := if fixtureValid then result.validationError
      else some "fixture_values_or_structure" }

def contentObservation (raw : Bytes) (headers : List (Text × Text)) (mode condition : Text) :
    Content :=
  let result : Content := { encodedSha256 := some (lib.sha256 raw) }
  let encoding := lib.lower (lib.strip ((header headers "content-encoding").getD []))
  match decodeBody lib encoding raw with
  | .error category => { result with validationError := some category }
  | .ok decoded =>
    let result := { result with
      encodingValid := true
      decodedBytes := some decoded.length
      decodedSha256 := some (lib.sha256 decoded) }
    match lib.loads decoded with
    | none => { result with jsonValid := some false, validationError := some "invalid_json" }
    | some (.list data) =>
      compareItems lib { result with jsonValid := some true } headers encoding mode condition data
    | some _ => { result with jsonValid := some true, validationError := some "fixture_not_array" }

end

/-! ## Shares -/

theorem ratio_eq {m n : Nat} (hm : m ≤ 2 ^ 53) (hn : 0 < n) :
    ∃ h h', ratio m n = .fin (nearest (m / n)) h h' ∧ 0 ≤ nearest ((m : ℚ) / n) := by
  have hn' : (1 : ℚ) ≤ n := by exact_mod_cast hn
  have hnonneg : (0 : ℚ) ≤ (m : ℚ) / n := by positivity
  have hrep : Representable ((2 : ℚ) ^ 53) := ⟨1, 53, by norm_num, by norm_num, by norm_num⟩
  have hle : (m : ℚ) / n ≤ 2 ^ 53 := by
    have hm' : (m : ℚ) ≤ 2 ^ 53 := by exact_mod_cast hm
    exact (div_le_self (by positivity) hn').trans hm'
  have hnear : nearest ((m : ℚ) / n) ≤ 2 ^ 53 := (nearest_mono hle).trans_eq (nearest_eq_self hrep)
  have hlimit : |nearest ((m : ℚ) / n)| < limit := by
    rw [abs_of_nonneg (nearest_nonneg hnonneg)]
    refine hnear.trans_lt ?_
    rw [limit, ← zpow_natCast]
    exact zpow_lt_zpow_right₀ (by norm_num) (by norm_num)
  exact ⟨representable_nearest _, hlimit, Binary64.ofRat_of_lt hlimit, nearest_nonneg hnonneg⟩

/-- A share is finite and not negative. -/
theorem ratio_checked {m n : Nat} (hm : m ≤ 2 ^ 53) (hn : 0 < n) :
    nonfinite (.float (ratio m n)) = false ∧ Value.less (.float (ratio m n)) 0 = false := by
  obtain ⟨h, h', hratio, hnonneg⟩ := ratio_eq hm hn
  rw [hratio]
  refine ⟨rfl, decide_eq_false ?_⟩
  rw [Int.cast_zero]
  exact not_lt.mpr hnonneg

theorem ratio_le_one {m n : Nat} (hm : m ≤ 2 ^ 53) (hn : 0 < n) (hle : m ≤ n) :
    Value.more (.float (ratio m n)) 1 = false := by
  obtain ⟨h, h', hratio, -⟩ := ratio_eq hm hn
  rw [hratio]
  refine decide_eq_false ?_
  rw [Int.cast_one]
  have hone : (m : ℚ) / n ≤ 1 := by
    rw [div_le_one (by exact_mod_cast hn)]
    exact_mod_cast hle
  exact not_lt.mpr (nearest_le_one hone)

/-! ## The counters -/

theorem total_countIn (item : Value) (counts : List (Text × Nat)) :
    total (countIn item counts) ≤ total counts + counts.length := by
  induction counts with
  | nil => exact Nat.le_refl _
  | cons c counts ih =>
    have hone : (if (fieldValue item c.1).isSome then 1 else 0) ≤ 1 := by split <;> omega
    simp only [total, countIn, List.map_cons, List.sum_cons, List.length_cons] at ih ⊢
    omega

/-- What the counters are after `n` items. -/
structure Tally.Counts (t : Tally) (n : Nat) : Prop where
  required_keys : t.required.map Prod.fst = REQUIRED_FIELDS
  optional_keys : t.optional.map Prod.fst = OPTIONAL_FIELDS
  required_le : total t.required ≤ n * REQUIRED_FIELDS.length
  optional_le : total t.optional ≤ n * OPTIONAL_FIELDS.length

theorem Tally.counters_item (t : Tally) (v : Value) :
    (t.item v).required = (if isDict v then countIn v t.required else t.required) ∧
      (t.item v).optional = if isDict v then countIn v t.optional else t.optional := by
  rw [Tally.item]
  split <;> exact ⟨rfl, rfl⟩

theorem counted_le (v : Value) {counts : List (Text × Nat)} {n : Nat} {paths : List Text}
    (hkeys : counts.map Prod.fst = paths) (hle : total counts ≤ n * paths.length) :
    (if isDict v then countIn v counts else counts).map Prod.fst = paths ∧
      total (if isDict v then countIn v counts else counts) ≤ (n + 1) * paths.length := by
  have hcount := total_countIn v counts
  have hlen : counts.length = paths.length := by rw [← hkeys, List.length_map]
  rw [Nat.succ_mul]
  split
  · refine ⟨by rw [countIn, List.map_map, ← hkeys]; rfl, ?_⟩
    omega
  · exact ⟨hkeys, by omega⟩

theorem Tally.Counts.item {t : Tally} {n : Nat} (h : t.Counts n) (v : Value) :
    (t.item v).Counts (n + 1) := by
  obtain ⟨hrequired, hoptional⟩ := t.counters_item v
  have hr := counted_le v h.required_keys h.required_le
  have ho := counted_le v h.optional_keys h.optional_le
  rw [← hrequired] at hr
  rw [← hoptional] at ho
  exact ⟨hr.1, ho.1, hr.2, ho.2⟩

theorem counts_foldl {t : Tally} {n : Nat} (h : t.Counts n) (data : List Value) :
    (data.foldl Tally.item t).Counts (n + data.length) := by
  induction data generalizing t n with
  | nil => exact h
  | cons v data ih =>
    have hnext := ih (h.item v)
    rwa [List.foldl_cons, List.length_cons, Nat.add_comm data.length, ← Nat.add_assoc]

theorem counts_start : Tally.start.Counts 0 := ⟨rfl, rfl, Nat.le_refl _, Nat.le_refl _⟩

/-! ## What the observations have in common -/

/-- A number that no check refuses. -/
def Share (x : Option Binary64) : Prop :=
  ∀ y, x = some y → nonfinite (.float y) = false ∧ Value.less (.float y) 0 = false

/-- A share of the whole. -/
def Part (x : Option Binary64) : Prop := ∃ y, x = some y ∧ Value.more (.float y) 1 = false

/-- A body can be valid if all of it was understood. -/
structure Content.Complete (c : Content) (headers : List (Text × Text)) : Prop where
  json : c.jsonValid = some true
  decoded : ∃ n, c.decodedBytes = some n
  retention : Part c.itemRetention
  coverage : Part c.fieldCoverage
  reduced : ∃ b, c.reduced = some b
  preserved : ∃ b, c.requiredValuesPreserved = some b
  bypass : header headers "x-cache-status" = some ("BYPASS" : Text)

/-- Counters with a key for each of their fields. -/
def Keys (x : Option (List (Text × Nat))) : Prop := ∀ y, x = some y → (y.map Prod.fst).Nodup

structure Content.Checked (c : Content) (headers : List (Text × Text)) : Prop where
  retention : Share c.itemRetention
  coverage : Share c.fieldCoverage
  required : Keys c.requiredByField
  optional : Keys c.optionalByField
  complete : c.fixtureValid = true → c.modeValid = true → c.metadataValid = true →
    c.Complete headers

theorem length_payload : PAYLOAD.length = 100 := by
  rw [PAYLOAD, List.length_map, List.length_range]

section

variable {lib : Decoders} {headers : List (Text × Text)} {mode condition : Text}

/-- A body that the mode allows has no more items than the fixture. -/
theorem length_le_of_modeValid {result : Content} {encoding : Text} {data : List Value}
    (h : (compareItems lib result headers encoding mode condition data).modeValid = true) :
    data.length ≤ 100 := by
  simp only [compareItems, Bool.and_eq_true, decide_eq_true_eq] at h
  obtain ⟨⟨⟨⟨⟨-, hdedup⟩, -⟩, hids⟩, -⟩, -⟩ := h
  rw [hids, List.nodup_range.dedup, List.length_range] at hdedup
  rw [← hdedup, length_payload]
  split <;> omega

theorem compareItems_checked {result : Content} {encoding : Text} {data : List Value}
    (hjson : result.jsonValid = some true) (hdecoded : ∃ n, result.decodedBytes = some n)
    (hlen : data.length ≤ MAX_BODY_BYTES) :
    (compareItems lib result headers encoding mode condition data).Checked headers := by
  have hcounts := counts_foldl counts_start data
  have hr := hcounts.required_le
  have ho := hcounts.optional_le
  rw [Nat.zero_add] at hr ho
  have hfields : REQUIRED_FIELDS.length = 3 ∧ OPTIONAL_FIELDS.length = 2 := ⟨rfl, rfl⟩
  rw [hfields.1] at hr
  rw [hfields.2] at ho
  have hmax : MAX_BODY_BYTES = 8388608 := rfl
  have hitems : data.length ≤ 2 ^ 53 := by omega
  have hcells : total (data.foldl Tally.item .start).required +
      total (data.foldl Tally.item .start).optional ≤ 2 ^ 53 := by omega
  have hpayload := length_payload
  refine ⟨fun x hx => ?_, fun x hx => ?_, fun x hx => ?_, fun x hx => ?_,
    fun hfixture hmode hmetadata => ?_⟩
  · cases hx
    exact ratio_checked hitems (by omega)
  · cases hx
    exact ratio_checked hcells (by rw [hfields.1, hfields.2]; omega)
  · cases hx
    rw [hcounts.required_keys]
    decide
  · cases hx
    rw [hcounts.optional_keys]
    decide
  · have hle := length_le_of_modeValid hmode
    refine ⟨hjson, hdecoded, ⟨_, rfl, ratio_le_one hitems (by omega) (by omega)⟩,
      ⟨_, rfl, ratio_le_one hcells ?_ ?_⟩, ⟨_, rfl⟩, ⟨_, rfl⟩, ?_⟩
    · rw [hfields.1, hfields.2]
      omega
    · rw [hfields.1, hfields.2]
      omega
    · exact (of_decide_eq_true hmetadata).2.2.1

/-- A body that was not compared with the fixture is not valid, and has no shares. -/
theorem checked_of_not_compared {c : Content} (hretention : c.itemRetention = none)
    (hcoverage : c.fieldCoverage = none) (hrequired : c.requiredByField = none)
    (hoptional : c.optionalByField = none) (hfixture : c.fixtureValid = false) :
    c.Checked headers := by
  refine ⟨fun x hx => ?_, fun x hx => ?_, fun x hx => ?_, fun x hx => ?_, fun h => ?_⟩
  · rw [hretention] at hx
    cases hx
  · rw [hcoverage] at hx
    cases hx
  · rw [hrequired] at hx
    cases hx
  · rw [hoptional] at hx
    cases hx
  · rw [hfixture] at h
    cases h

/-- What is decoded, and from what, where no error is found. -/
theorem decodeBody_iff {encoding : Text} {raw decoded : Bytes} :
    decodeBody lib encoding raw = .ok decoded ↔ decoded.length ≤ MAX_BODY_BYTES ∧
      (encoding = ("gzip" : Text) ∧ lib.gunzip raw = .ok decoded ∨
        encoding ∈ (["", "identity"] : List Text) ∧
          ([0x1f, 0x8b] : Bytes).isPrefixOf raw = false ∧ decoded = raw) := by
  have hlimit : ∀ d : Except (Option Text) Bytes, (match d with
      | .error message => (.error (message.getD "invalid_gzip".toList) : Except Text Bytes)
      | .ok d => if MAX_BODY_BYTES < d.length then .error "decoded_body_limit" else .ok d) =
        .ok decoded ↔ decoded.length ≤ MAX_BODY_BYTES ∧ d = .ok decoded := by
    intro d
    cases d with
    | error message => exact iff_of_false (fun h => nomatch h) (fun h => nomatch h.2)
    | ok d =>
      simp only [Except.ok.injEq]
      split
      next hlong =>
        refine iff_of_false (fun h => nomatch h) (fun h => ?_)
        rw [h.2] at hlong
        omega
      next hshort =>
        rw [Except.ok.injEq]
        refine ⟨fun h => ⟨?_, h⟩, fun h => h.2⟩
        rw [← h]
        exact Nat.le_of_not_lt hshort
  rw [decodeBody]
  refine (hlimit _).trans (and_congr_right fun _ => ?_)
  by_cases hgzip : encoding = ("gzip" : Text)
  · have hidentity : encoding ∉ (["", "identity"] : List Text) := by
      rw [hgzip]
      decide
    rw [if_pos hgzip]
    exact ⟨fun h => .inl ⟨hgzip, h⟩, fun h => (h.resolve_right fun h => hidentity h.1).2⟩
  · rw [if_neg hgzip]
    by_cases hidentity : encoding ∈ (["", "identity"] : List Text)
    · rw [if_pos hidentity]
      cases ([0x1f, 0x8b] : Bytes).isPrefixOf raw with
      | true =>
        exact iff_of_false (fun h => nomatch h)
          (fun h => h.elim (fun h => hgzip h.1) fun h => Bool.noConfusion h.2.1)
      | false =>
        rw [if_neg Bool.false_ne_true, Except.ok.injEq]
        exact ⟨fun h => .inr ⟨hidentity, rfl, h.symm⟩,
          fun h => (h.resolve_left fun h => hgzip h.1).2.2.symm⟩
    · rw [if_neg hidentity]
      exact iff_of_false (fun h => nomatch h)
        (fun h => h.elim (fun h => hgzip h.1) fun h => hidentity h.1)

theorem length_le_of_decodeBody {encoding : Text} {raw decoded : Bytes}
    (h : decodeBody lib encoding raw = .ok decoded) : decoded.length ≤ MAX_BODY_BYTES :=
  (decodeBody_iff.mp h).1

theorem contentObservation_checked (hlib : lib.Sound) (raw : Bytes) :
    (contentObservation lib raw headers mode condition).Checked headers := by
  rw [contentObservation]
  cases hdecode : decodeBody lib
      (lib.lower (lib.strip ((header headers "content-encoding").getD []))) raw with
  | error category => exact checked_of_not_compared rfl rfl rfl rfl rfl
  | ok decoded =>
    simp only
    split
    next => exact checked_of_not_compared rfl rfl rfl rfl rfl
    next data hdata =>
      exact compareItems_checked rfl ⟨_, rfl⟩
        ((hlib.items hdata).trans (length_le_of_decodeBody hdecode))
    next => exact checked_of_not_compared rfl rfl rfl rfl rfl

end

end Study
end AdaptiveGateway
