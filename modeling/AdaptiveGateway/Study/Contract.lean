/-
What the collector writes and what the analysis accepts.

The checks of the analysis are gone through one by one, over what they read of the row.
All of them pass whatever the outcome of the request is, but for one: the status of a
response may be out of the range that the analysis knows.
-/
import AdaptiveGateway.Study.Measurement

namespace AdaptiveGateway
namespace Study

open Codec Python Numeric

/-- What a request is called with. -/
structure Request.Valid (r : Request) : Prop where
  trialId : r.trialId ≠ []
  condition : Str.ofText r.condition ∈ CONDITIONS
  mode : Str.ofText r.mode ∈ MODES
  phase : Str.ofText r.phase ∈ (["warmup", "measured"] : List Str)
  requestId : 1 ≤ r.requestId

section

variable {m : Measurement} {row : Row} (h : m.Fields row)

include h

/-! ## Identity -/

theorem Measurement.Fields.checkPhase (hreq : m.request.Valid) : checkPhase row = .ok () := by
  refine bind_ok.mpr ⟨true, memberOf_ok.mpr ⟨_, hreq.phase, h.phase⟩, refuse_ok.mpr ?_⟩
  have heq : (item row "system").eq (item row "mode") = true := by
    rw [h.system, h.mode]
    exact Value.eq_str.mpr rfl
  rw [heq]
  rfl

theorem Measurement.Fields.checkNames (hreq : m.request.Valid) : checkNames row = .ok () := by
  refine bind_ok.mpr ⟨true, memberOf_ok.mpr ⟨_, hreq.condition, h.condition⟩, ?_⟩
  refine seq_ok.mpr ⟨rfl, bind_ok.mpr ⟨true, memberOf_ok.mpr ⟨_, hreq.mode, h.mode⟩, ?_⟩⟩
  rw [refuse_ok, h.trialId]
  cases htrial : m.request.trialId with
  | nil => exact absurd htrial hreq.trialId
  | cons c t => rfl

theorem Measurement.Fields.checkRequestId (hreq : m.request.Valid) :
    checkRequestId row = .ok () := by
  have hpos := hreq.requestId
  rw [Study.checkRequestId, refuse_ok, h.requestId, Value.less_int]
  simp only [Value.isInt, Value.isBool, Bool.not_true, Bool.false_or, decide_eq_false_iff_not]
  omega

theorem Measurement.Fields.checkIdentity (hreq : m.request.Valid)
    (hthere : ∀ key ∈ REQUIRED, (Dict.lookup key row).isNone = false) :
    checkIdentity row = .ok () := by
  refine seq_ok.mpr ⟨refuse_ok.mpr ?_, seq_ok.mpr ⟨h.checkPhase hreq,
    seq_ok.mpr ⟨h.checkNames hreq, h.checkRequestId hreq⟩⟩⟩
  have hversion : (item row "schema_version").eq (.int 2) = true := by
    rw [h.schemaVersion]
    exact Value.int_eq_int.mpr rfl
  rw [hversion, Bool.not_true, Bool.or_false, List.any_eq_false]
  intro key hkey
  rw [hthere key hkey]
  exact Bool.false_ne_true

theorem Measurement.Fields.identity : identity row = m.request.identity.values := by
  simp only [Study.identity, IDENTITY, List.map_cons, List.map_nil, h.trialId, h.condition, h.mode,
    h.phase, h.requestId]
  rfl

/-! ## Contents -/

theorem Measurement.Fields.checkItems (hfinite : ∀ e ∈ row, nonfinite e.2 = false)
    (hitem : ∀ e ∈ row, item row e.1 = e.2) : row.forM checkItem = .ok () := by
  refine forM_ok.mpr fun e he => seq_ok.mpr ⟨refuse_ok.mpr (hfinite e he), ?_⟩
  have hvalue := hitem e he
  split
  next hkey =>
    split
    next => rfl
    next hnull =>
      rw [refuse_ok, ← hvalue]
      simp only [List.mem_cons, List.not_mem_nil, or_false] at hkey
      rcases hkey with hkey | hkey | hkey
      · rw [hkey, h.latency, m.latency.nonneg]
        rfl
      · rw [hkey, h.encodedBytes, Value.less_int]
        simp [Value.isNumber, Value.isBool]
      · rw [hkey, h.decodedBytes] at hvalue ⊢
        cases hdecoded : m.content.decodedBytes with
        | none =>
          rw [hdecoded] at hvalue
          exact absurd ⟨hvalue.symm, hkey⟩ hnull
        | some n =>
          rw [Study.optional, Value.less_int]
          simp [Value.isNumber, Value.isBool]
  next => rfl

theorem Measurement.Fields.checkOutcomes : OUTCOMES.forM (checkOutcome row) = .ok () := by
  refine forM_ok.mpr fun key hkey => refuse_ok.mpr ?_
  simp only [OUTCOMES, List.mem_cons, List.not_mem_nil, or_false] at hkey
  rcases hkey with rfl | rfl | rfl | rfl
  · rw [h.success]; rfl
  · rw [h.timeout]; rfl
  · rw [h.validResponse]; rfl
  · rw [h.transportComplete]; rfl

omit h in
theorem checkCount_of_optional {key : Str} {o : Option Nat}
    (hkey : item row key = optional (fun n : Nat => .int n) o) : checkCount row key = .ok () := by
  rw [checkCount, refuse_ok, hkey]
  cases o with
  | none => rfl
  | some n =>
    rw [Study.optional, Value.less_int]
    simp [Value.isInt, Value.isBool]

theorem Measurement.Fields.checkCounts : COUNTS.forM (checkCount row) = .ok () := by
  refine forM_ok.mpr fun key hkey => ?_
  simp only [COUNTS, List.mem_cons, List.not_mem_nil, or_false] at hkey
  rcases hkey with rfl | rfl | rfl | rfl | rfl
  · exact checkCount_of_optional (o := some m.transport.size) h.encodedBytes
  · exact checkCount_of_optional h.decodedBytes
  · exact checkCount_of_optional h.itemCount
  · exact checkCount_of_optional h.requiredPresent
  · exact checkCount_of_optional h.optionalPresent

omit h in
theorem checkContent_of_optional {key : Str} {o : Option Bool}
    (hkey : item row key = optional .bool o) : checkContent row key = .ok () := by
  rw [checkContent, refuse_ok, hkey]
  cases o <;> rfl

theorem Measurement.Fields.checkContents : CONTENTS.forM (checkContent row) = .ok () := by
  refine forM_ok.mpr fun key hkey => ?_
  simp only [CONTENTS, List.mem_cons, List.not_mem_nil, or_false] at hkey
  rcases hkey with rfl | rfl | rfl
  · exact checkContent_of_optional h.reduced
  · exact checkContent_of_optional h.preserved
  · exact checkContent_of_optional h.jsonValid

/-- The one check that depends on the outcome. -/
theorem Measurement.Fields.checkStatus_iff : checkStatus row = .ok () ↔
    m.transport.status = 0 ∨ 100 ≤ m.transport.status ∧ m.transport.status ≤ 599 := by
  have hzero : (Value.eq (.int m.transport.status) (.int 0)) = decide (m.transport.status = 0) := by
    rw [Bool.eq_iff_iff, Value.int_eq_int, decide_eq_true_eq]
    omega
  rw [checkStatus, refuse_ok, h.status, hzero, Value.less_int, Value.more_int]
  simp only [Value.isInt, Value.isBool, Bool.not_true, Bool.false_or, Bool.and_eq_false_iff,
    Bool.not_eq_false', Bool.and_eq_true, Bool.not_eq_true', decide_eq_true_eq,
    decide_eq_false_iff_not]
  omega

theorem Measurement.Fields.checkSuccess : checkSuccess row = .ok () := by
  have hsucceeds : succeeds row = m.success := by
    rw [succeeds, h.transportComplete, h.status, Value.less_int, Value.less_int,
      Measurement.success, Bool.eq_iff_iff]
    simp only [Value.truthy, Bool.and_eq_true, Bool.not_eq_true', decide_eq_true_eq,
      decide_eq_false_iff_not]
    refine and_congr_right fun _ => ?_
    omega
  rw [Study.checkSuccess, refuse_ok, Bool.not_eq_false', hsucceeds, h.success]
  exact Value.eq_bool.mpr rfl

theorem Measurement.Fields.checkValid
    (hcomplete : m.content.fixtureValid = true → m.content.modeValid = true →
      m.content.metadataValid = true → m.content.Complete m.transport.selected) :
    checkValid row = .ok () := by
  rw [Study.checkValid, refuse_ok, h.validResponse]
  cases hvalid : m.valid with
  | false => rfl
  | true =>
    simp only [Measurement.valid, Bool.and_eq_true, decide_eq_true_eq] at hvalid
    obtain ⟨⟨⟨⟨⟨hsuccess, hstatus⟩, hencoding⟩, hfixture⟩, hmode⟩, hmetadata⟩ := hvalid
    have hc := hcomplete hfixture hmode hmetadata
    obtain ⟨n, hdecoded⟩ := hc.decoded
    obtain ⟨x, hretention, -⟩ := hc.retention
    obtain ⟨y, hcoverage, -⟩ := hc.coverage
    obtain ⟨b, hreduced⟩ := hc.reduced
    obtain ⟨p, hpreserved⟩ := hc.preserved
    have hbypass : (item row "cache_status").eq (.str "BYPASS") = true := by
      rw [h.cacheStatus, Measurement.column, hc.bypass]
      exact Value.eq_str.mpr rfl
    have hok : (item row "status").eq (.int 200) = true := by
      rw [h.status, hstatus]
      exact Value.int_eq_int.mpr rfl
    rw [hbypass, hok, h.success, hsuccess, h.decodedBytes, hdecoded]
    simp only [MEASURED, FLAGS, List.any_cons, List.any_nil, List.all_cons, List.all_nil,
      h.itemRetention, hretention, h.coverage, hcoverage, h.reduced, hreduced, h.preserved,
      hpreserved, h.encodingValid, hencoding, h.jsonValid, hc.json, h.fixtureValid, hfixture,
      h.modeValid, hmode, h.metadataValid, hmetadata, Study.optional]
    rfl

/-- A share that is one of the whole if the response is valid. -/
theorem Measurement.Fields.checkShare {key : Str} {x : Option Binary64}
    (hkey : item row key = optional .float x) (hshare : Share x)
    (hpart : m.valid = true → Part x) : checkCoverage row key = .ok () := by
  rw [checkCoverage, refuse_ok, hkey, h.validResponse]
  cases hx : x with
  | none => rfl
  | some y =>
    obtain ⟨-, hless⟩ := hshare y hx
    cases hvalid : m.valid with
    | false =>
      rw [Study.optional, hless]
      simp [Value.isNumber, Value.isBool, Value.truthy]
    | true =>
      obtain ⟨z, hz, hmore⟩ := hpart hvalid
      cases hx.symm.trans hz
      rw [Study.optional, hless, hmore]
      simp [Value.isNumber, Value.isBool]

theorem Measurement.Fields.passes_iff (hreq : m.request.Valid)
    (hchecked : m.content.Checked m.transport.selected)
    (hthere : ∀ key ∈ REQUIRED, (Dict.lookup key row).isNone = false)
    (hfinite : ∀ e ∈ row, nonfinite e.2 = false) (hitem : ∀ e ∈ row, item row e.1 = e.2) :
    Passes row ↔ m.transport.status = 0 ∨
      100 ≤ m.transport.status ∧ m.transport.status ≤ 599 := by
  have hcomplete : m.valid = true → m.content.Complete m.transport.selected := by
    intro hvalid
    simp only [Measurement.valid, Bool.and_eq_true] at hvalid
    exact hchecked.complete hvalid.1.1.2 hvalid.1.2 hvalid.2
  have hcoverage : COVERAGE.forM (checkCoverage row) = .ok () := by
    refine forM_ok.mpr fun key hkey => ?_
    simp only [COVERAGE, List.mem_cons, List.not_mem_nil, or_false] at hkey
    rcases hkey with rfl | rfl
    · exact h.checkShare h.itemRetention hchecked.retention fun hv => (hcomplete hv).retention
    · exact h.checkShare h.coverage hchecked.coverage fun hv => (hcomplete hv).coverage
  rw [← h.checkStatus_iff]
  constructor
  · rintro ⟨-, hcontents⟩
    simp only [Study.checkContents, seq_ok] at hcontents
    exact hcontents.2.2.2.2.1
  · intro hstatus
    refine ⟨h.checkIdentity hreq hthere, ?_⟩
    simp only [Study.checkContents, seq_ok]
    exact ⟨h.checkItems hfinite hitem, h.checkOutcomes, h.checkCounts, h.checkContents, hstatus,
      h.checkSuccess, h.checkValid hchecked.complete, hcoverage⟩

end

/-! ## Plain rows -/

section

variable {m : Measurement}

theorem plain_optional {α : Type} {f : α → Value} {o : Option α}
    (h : ∀ a, o = some a → Value.Plain (f a)) : Value.Plain (optional f o) := by
  cases ho : o with
  | none => exact trivial
  | some a => exact h a ho

theorem plain_texts (o : Option Text) : Value.Plain (optional ofText o) :=
  plain_optional fun t _ => Value.scalar_ofText t

theorem plain_counts (o : Option Nat) : Value.Plain (optional (fun n : Nat => .int n) o) :=
  plain_optional fun _ _ => trivial

theorem plain_flags (o : Option Bool) : Value.Plain (optional .bool o) :=
  plain_optional fun _ _ => trivial

theorem plain_share {x : Option Binary64} (h : Share x) : Value.Plain (optional .float x) := by
  refine plain_optional fun y hy => ?_
  obtain ⟨hfinite, -⟩ := h y hy
  exact (Bool.not_eq_false' _).mp hfinite

theorem plain_counters {x : Option (List (Text × Nat))} (h : Keys x) :
    Value.Plain (optional counters x) := by
  refine plain_optional fun counts hcounts => ⟨?_, Value.plainMembers_iff.mpr fun e he => ?_⟩
  · have hkeys := (h counts hcounts).map fun _ _ => Str.ofText_injective
    rw [List.map_map] at hkeys ⊢
    exact hkeys
  · obtain ⟨c, -, rfl⟩ := List.mem_map.mp he
    exact ⟨Value.scalar_ofText c.1, trivial⟩

theorem plain_row (h : m.content.Checked m.transport.selected) : Value.Plain (.dict m.row) := by
  refine ⟨nodup_row m, Value.plainMembers_iff.mpr ?_⟩
  have htext : ∀ t, Value.Plain (ofText t) := Value.scalar_ofText
  have hcaught : Value.Plain (optional (fun f => ofText f.category) m.transport.caught) :=
    plain_optional fun f _ => htext f.category
  have hcolumn : ∀ name, Value.Plain (m.column name) := fun name => plain_texts _
  simp only [Measurement.row, Measurement.head, Content.items, Measurement.tail, List.cons_append,
    List.nil_append, List.forall_mem_cons, Value.scalar_ofText, true_and, htext, hcaught, hcolumn,
    plain_texts, plain_counts, plain_flags, plain_share h.retention, plain_share h.coverage,
    plain_counters h.required, plain_counters h.optional]
  refine ⟨trivial, trivial, trivial, trivial, trivial, trivial, m.latency.finite, trivial, trivial,
    trivial, trivial, trivial, m.validation.finite, trivial, List.forall_mem_nil _⟩

/-- The row is read back with its keys in order. -/
theorem read_written {py : Numbers} (hpy : py.Faithful)
    (h : m.content.Checked m.transport.selected) :
    ∃ line, writeRow py m.row = some line ∧
      readRow py line = some (.dict (Value.sortItems m.row)) := by
  have hplain := plain_row h
  have hsorted : Value.Plain (.dict (Value.sortItems m.row)) := Value.plain_sortKeys _ hplain
  refine ⟨_, if_pos (Value.finite_of_plain _ hplain), ?_⟩
  have hconv := hpy.converts
  have hitems : Value.sortKeys (.dict m.row) = .dict (Value.sortItems m.row) := rfl
  rw [readRow, hitems]
  have hlen := (Value.sortItems_perm m.row).length_eq
  cases hrow : Value.sortItems m.row with
  | nil =>
    rw [hrow, Value.sortMembers_eq, List.length_map] at hlen
    cases hlen
  | cons e es =>
    rw [hrow] at hsorted
    exact Value.loads_dumps_dict hconv (by simp [Rfc8259.Ws]) hsorted (by simp [Json.isWs])

theorem passes_sorted_iff (hreq : m.request.Valid)
    (h : m.content.Checked m.transport.selected) :
    Passes (Value.sortItems m.row) ↔ m.transport.status = 0 ∨
      100 ≤ m.transport.status ∧ m.transport.status ≤ 599 := by
  have hnodup := Value.nodup_sortItems (nodup_row m)
  have hplain := (Value.plain_sortKeys _ (plain_row h)).2
  refine (fields_sorted m).passes_iff hreq h (fun key hkey => ?_) (fun e he => ?_) fun e he => ?_
  · have hmem : key ∈ KEYS := by
      revert key
      decide +kernel
    rw [← keys_row m] at hmem
    obtain ⟨e, he, rfl⟩ := List.mem_map.mp hmem
    obtain ⟨v, hv⟩ := Dict.exists_lookup_of_mem he
    rw [Value.lookup_sortItems (nodup_row m), hv]
    rfl
  · have hvalue := (Value.plainMembers_iff.mp hplain e he).2
    cases hv : e.2 with
    | float x =>
      rw [hv] at hvalue
      exact (Bool.not_eq_false' _).mpr hvalue
    | _ => rfl
  · have hlookup := (Dict.mem_items_iff (d := ⟨Value.sortItems m.row, hnodup⟩)).mp he
    exact congrArg (fun o : Option Value => o.getD .null) hlookup

end

/-! ## The contract -/

/-- The status of the response, if there was one. -/
def Outcome.status : Outcome → Option Nat
  | .failed _ => none
  | .response status .. => some status

/-- What the client library is assumed to report. -/
def Outcome.Reported (o : Outcome) : Prop :=
  ∀ status, o.status = some status → 200 ≤ status ∧ status ≤ 999

theorem measurement_checked {lib : Decoders} (hlib : lib.Sound) (req : Request) (clock : Clock)
    (o : Outcome) : (measurement lib req clock o).content.Checked (transport o).selected := by
  have hcontent : (contentObservation lib (transport o).chunks.flatten (transport o).selected
      req.mode req.condition).Checked (transport o).selected := contentObservation_checked hlib _
  rw [measurement]
  cases hcomplete : (transport o).complete with
  | true => simpa only [hcomplete, if_true] using hcontent
  | false =>
    simp only [Bool.false_eq_true, if_false]
    exact checked_of_not_compared rfl rfl rfl rfl rfl

theorem status_transport (o : Outcome) : (transport o).status = o.status.getD 0 := by
  cases o <;> rfl

/-- The row is written, and what is read back passes every check that looks at it alone. -/
def Accepted (py : Numbers) (row : Row) : Prop :=
  ∃ line read, writeRow py row = some line ∧ readRow py line = some (.dict read) ∧ Passes read

theorem accepted_iff {py : Numbers} (hpy : py.Faithful) {lib : Decoders} (hlib : lib.Sound)
    {req : Request} (hreq : req.Valid) (clock : Clock) (o : Outcome) :
    Accepted py (measureRequest lib req clock o) ↔
      o.status.getD 0 = 0 ∨ 100 ≤ o.status.getD 0 ∧ o.status.getD 0 ≤ 599 := by
  have hchecked := measurement_checked hlib req clock o
  obtain ⟨line, hwrite, hread⟩ := read_written hpy hchecked
  have hpasses : Passes (Value.sortItems (measurement lib req clock o).row) ↔ _ :=
    passes_sorted_iff hreq hchecked
  rw [← status_transport]
  refine Iff.trans ⟨?_, fun hpass => ⟨line, _, hwrite, hread, hpass⟩⟩ hpasses
  rintro ⟨line', read, hwrite', hread', hpass⟩
  cases hwrite.symm.trans hwrite'
  cases hread.symm.trans hread'
  exact hpass

/-- A row of the collector passes the checks of the analysis unless its response has a
status above 599. -/
theorem measureRequest_accepted_iff {py : Numbers} (hpy : py.Faithful) {lib : Decoders}
    (hlib : lib.Sound) {req : Request} (hreq : req.Valid) (clock : Clock) {o : Outcome}
    (ho : o.Reported) :
    Accepted py (measureRequest lib req clock o) ↔
      ∀ status, o.status = some status → status ≤ 599 := by
  rw [accepted_iff hpy hlib hreq]
  cases hs : o.status with
  | none => simp
  | some status =>
    obtain ⟨hlow, -⟩ := ho status hs
    simp only [Option.getD_some, Option.some.injEq, forall_eq']
    omega

/-! ## The setting of the tests -/

/-- The body of the tests is empty, and no JSON text. -/
def mockDecoders : Decoders where
  sha256 _ := "e3b0c44298fc1c149afbf4c8996fb92427ae41e4649b934ca495991b7852b855"
  gunzip _ := .error none
  loads _ := none
  strip := strip
  lower := lower

theorem mockDecoders_sound : mockDecoders.Sound where
  items h := by cases h

def mockRequest : Request := ⟨"trial_001", "GOOD", "full", "measured", 1⟩

theorem mockRequest_valid : mockRequest.Valid where
  trialId := List.cons_ne_nil _ _
  condition := by decide
  mode := by decide
  phase := by decide
  requestId := Nat.le_refl _

/-- `json.loads` of UTF-8, with the digest of the body below.  There is no U+0000 in a JSON
text. -/
noncomputable def mockJson : Decoders where
  sha256 _ := "646095269e8d0fa660b54c84343e51ca22bf1ea93b94466d6db8f7ce27953509"
  gunzip _ := .error none
  loads b := (utf8Decode b).bind fun t => if '\x00' ∈ t then none
    else Value.loads mockNumbers.int mockNumbers.float (.ofText t)
  strip := strip
  lower := lower

theorem mockJson_some {b : Bytes} {v : Value} (h : mockJson.loads b = some v) :
    ∃ t, utf8 t = b ∧ '\x00' ∉ t ∧
      Value.loads mockNumbers.int mockNumbers.float (.ofText t) = some v := by
  obtain ⟨t, ht, h⟩ := Option.bind_eq_some_iff.mp h
  split at h
  next => cases h
  next hnul => exact ⟨t, utf8_of_utf8Decode ht, hnul, h⟩

theorem mockJson_sound : mockJson.Sound where
  items h := by
    obtain ⟨t, rfl, hnul, ht⟩ := mockJson_some h
    exact (Value.length_loads hnul ht).trans (length_le_length_utf8 t)

theorem mockJson_dumps {gap : Text} (hgap : Rfc8259.Ws gap) {v : Value} (h : Value.Plain v) :
    mockJson.loads (utf8 (Value.dumps mockRepr gap v)) = some v := by
  have hnul : '\x00' ∉ Value.dumps mockNumbers.repr gap v :=
    Value.nul_not_mem_dumps mockNumbers_faithful.repr_number hgap v
  have hread := Value.loads_dumps mockNumbers_faithful.converts hgap h
  show (utf8Decode (utf8 (Value.dumps mockNumbers.repr gap v))).bind _ = some v
  rw [utf8Decode_utf8, Option.bind_some, if_neg hnul, hread]

def mockItem (id : ℤ) : Value :=
  .dict [("id", .int id), ("title", .str (.ofText ("item ".toList ++ intText id))),
    ("meta", .dict [("category", .str "synthetic")])]

theorem plain_mockItem (id : ℤ) : Value.Plain (mockItem id) :=
  ⟨(by decide : (["id", "title", "meta"] : List Str).Nodup), Value.scalar_ofText _, trivial,
    Value.scalar_ofText _, Value.scalar_ofText _, Value.scalar_ofText _,
    ⟨List.nodup_singleton _, Value.scalar_ofText _, Value.scalar_ofText _, trivial⟩, trivial⟩

/-- Two items of the fixture, as the gateway leaves them. -/
def mockList : Bytes := utf8 (Value.dumps mockRepr [' '] (.list [mockItem 0, mockItem 1]))

def mockElapsed : Elapsed := ⟨.zero, rfl, by simp [Value.less, Value.rat, Binary64.zero]⟩

def mockClock : Clock := ⟨"2026-10-18T00:00:00+00:00", mockElapsed, mockElapsed⟩

/-- A complete response without headers and without a body. -/
def mockOutcome (status : Nat) : Outcome := .response status (fun _ => none) [] none none

theorem mockOutcome_reported {status : Nat} (hlow : 200 ≤ status) (hhigh : status ≤ 999) :
    (mockOutcome status).Reported := by
  intro s hs
  cases hs
  exact ⟨hlow, hhigh⟩

/-- The body comes in two chunks. -/
def mockReceived : Outcome :=
  .response 200
    (fun name => if name = ("content-type" : Text) then some "application/json" else none)
    [mockList.take 64, mockList.drop 64] none none

theorem measureRequest_accepted_iff_json :
    (transport mockReceived).complete = true ∧
      mockJson.loads (transport mockReceived).chunks.flatten =
        some (.list [mockItem 0, mockItem 1]) ∧
      Accepted mockNumbers (measureRequest mockJson mockRequest mockClock mockReceived) := by
  have hreported : mockReceived.Reported := by
    intro s hs
    cases hs
    decide
  have hplain : Value.Plain (.list [mockItem 0, mockItem 1]) :=
    ⟨plain_mockItem 0, plain_mockItem 1, trivial⟩
  have hchunks : (transport mockReceived).chunks.flatten = mockList := by decide +kernel
  refine ⟨by decide +kernel, ?_, (measureRequest_accepted_iff mockNumbers_faithful mockJson_sound
    mockRequest_valid mockClock hreported).mpr fun status hs => ?_⟩
  · rw [hchunks]
    exact mockJson_dumps (by simp [Rfc8259.Ws]) hplain
  · cases hs
    decide

/-- A response with the status 600 makes a row that the analysis refuses. -/
theorem measureRequest_refused : (mockOutcome 600).Reported ∧
    ¬Accepted mockNumbers (measureRequest mockDecoders mockRequest mockClock (mockOutcome 600)) := by
  refine ⟨mockOutcome_reported (by decide) (by decide), fun h => ?_⟩
  have hstatus := (accepted_iff mockNumbers_faithful mockDecoders_sound mockRequest_valid
    mockClock (mockOutcome 600)).mp h
  revert hstatus
  decide

end Study
end AdaptiveGateway
