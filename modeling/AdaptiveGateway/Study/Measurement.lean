/-
One request of the study, from its submission to the line in the raw file.

What the client can report is an `Outcome`: an error before there is a response, or a
status with headers and the chunks of the body, whose transfer may break off.  An error on
leaving the stream may come after the whole body.
-/
import AdaptiveGateway.Study.Content
import AdaptiveGateway.Python.SortKeys
import AdaptiveGateway.Numbers

namespace AdaptiveGateway
namespace Study

open Codec Python Numeric

/-! ## The client -/

/-- An exception that is caught: its type, and whether it is a timeout. -/
structure Failure where
  category : Text
  timeout : Bool

inductive Outcome where
  | failed (f : Failure)
  | response (status : Nat) (headers : Text → Option Text) (chunks : List Bytes)
      (broken : Option Failure) (closing : Option Failure)

/-- The headers that are kept, with the columns they are kept in. -/
def SELECTED : List (Text × Str) :=
  [("content-encoding", "content_encoding"), ("content-type", "content_type"),
    ("x-response-mode", "response_mode"), ("x-adaptive-mode", "adaptive_mode"),
    ("x-response-completeness", "response_completeness"),
    ("x-network-quality", "network_quality"), ("x-cache-status", "cache_status")]

/-- What has been received when the stream is left. -/
structure Transport where
  status : Nat
  selected : List (Text × Text)
  size : Nat
  chunks : List Bytes
  complete : Bool
  caught : Option Failure

/-- The loop over the chunks: their size, those that are kept, and whether the limit was
exceeded. -/
def receive (size : Nat) (kept : List Bytes) : List Bytes → Nat × List Bytes × Bool
  | [] => (size, kept, false)
  | chunk :: chunks =>
    if MAX_BODY_BYTES < size + chunk.length then (size + chunk.length, kept, true)
    else receive (size + chunk.length) (kept ++ [chunk]) chunks

def transport : Outcome → Transport
  | .failed f => ⟨0, [], 0, [], false, some f⟩
  | .response status headers chunks broken closing =>
    let received := receive 0 [] chunks
    let raised := if received.2.2 then some ⟨"BodyLimitError", false⟩ else broken
    { status := status
      selected := SELECTED.map fun s => (s.1, ((headers s.1).getD []).take 512)
      size := received.1
      chunks := received.2.1
      complete := raised.isNone
      caught := closing.or raised }

/-! ## The row -/

structure Request where
  trialId : Text
  condition : Text
  mode : Text
  phase : Text
  requestId : Nat

/-- A number of milliseconds between two readings of a clock that does not go back. -/
structure Elapsed where
  ms : Binary64
  finite : ms.isFinite = true
  nonneg : Value.less (.float ms) 0 = false

/-- A body that was cut off is not looked at. -/
def Content.incomplete (c : Content) : Content :=
  { c with
    encodedSha256 := none
    decodedBytes := none
    decodedSha256 := none
    encodingValid := false
    validationError := some "incomplete_transport"
    jsonValid := none
    itemCount := none
    itemRetention := none
    requiredPresent := none
    optionalPresent := none
    requiredByField := none
    optionalByField := none
    requiredValuesPreserved := none
    fieldCoverage := none
    reduced := none
    fixtureValid := false
    metadataValid := false
    modeValid := false }

def optional {α : Type} (f : α → Value) : Option α → Value
  | none => .null
  | some a => f a

def ofText (t : Text) : Value := .str (.ofText t)

def counters (counts : List (Text × Nat)) : Value :=
  .dict (counts.map fun c => (Str.ofText c.1, .int c.2))

def Content.items (c : Content) : Row :=
  [("encoded_sha256", optional ofText c.encodedSha256),
    ("decoded_bytes", optional (fun n : Nat => .int n) c.decodedBytes),
    ("decoded_sha256", optional ofText c.decodedSha256),
    ("encoding_valid", .bool c.encodingValid),
    ("validation_error", optional ofText c.validationError),
    ("json_valid", optional .bool c.jsonValid),
    ("item_count", optional (fun n : Nat => .int n) c.itemCount),
    ("item_retention", optional .float c.itemRetention),
    ("required_present", optional (fun n : Nat => .int n) c.requiredPresent),
    ("optional_present", optional (fun n : Nat => .int n) c.optionalPresent),
    ("required_by_field", optional counters c.requiredByField),
    ("optional_by_field", optional counters c.optionalByField),
    ("required_values_preserved", optional .bool c.requiredValuesPreserved),
    ("field_coverage", optional .float c.fieldCoverage),
    ("reduced", optional .bool c.reduced),
    ("fixture_valid", .bool c.fixtureValid),
    ("metadata_valid", .bool c.metadataValid),
    ("mode_valid", .bool c.modeValid)]

/-- What is known when the row is finished. -/
structure Measurement where
  request : Request
  startedUtc : Text
  transport : Transport
  content : Content
  latency : Elapsed
  validation : Elapsed

def Measurement.success (m : Measurement) : Bool :=
  m.transport.complete && decide (200 ≤ m.transport.status ∧ m.transport.status < 300)

def Measurement.valid (m : Measurement) : Bool :=
  m.success && decide (m.transport.status = 200) && m.content.encodingValid &&
    m.content.fixtureValid && m.content.modeValid && m.content.metadataValid

/-- `row[column]` of a header, null if there was no response. -/
def Measurement.column (m : Measurement) (name : Text) : Value :=
  optional ofText (header m.transport.selected name)

/-- The row before the body is looked at. -/
def Measurement.head (m : Measurement) : Row :=
  [("schema_version", .int 2),
    ("trial_id", ofText m.request.trialId),
    ("system", ofText m.request.mode),
    ("mode", ofText m.request.mode),
    ("condition", ofText m.request.condition),
    ("request_id", .int m.request.requestId),
    ("phase", ofText m.request.phase),
    ("started_utc", ofText m.startedUtc),
    ("status", .int m.transport.status),
    ("transport_complete", .bool m.transport.complete),
    ("success", .bool m.success),
    ("exception_category", optional (fun f => ofText f.category) m.transport.caught),
    ("timeout", .bool ((m.transport.caught.map Failure.timeout).getD false)),
    ("content_encoding", m.column "content-encoding"),
    ("content_type", m.column "content-type"),
    ("response_mode", m.column "x-response-mode"),
    ("adaptive_mode", m.column "x-adaptive-mode"),
    ("response_completeness", m.column "x-response-completeness"),
    ("network_quality", m.column "x-network-quality"),
    ("cache_status", m.column "x-cache-status"),
    ("latency_ms", .float m.latency.ms),
    ("encoded_bytes", .int m.transport.size)]

def Measurement.tail (m : Measurement) : Row :=
  [("validation_ms", .float m.validation.ms), ("valid_response", .bool m.valid)]

def Measurement.row (m : Measurement) : Row := m.head ++ (m.content.items ++ m.tail)

/-- What the clock says: the time of the submission, how long the response took and how
long its validation. -/
structure Clock where
  startedUtc : Text
  latency : Elapsed
  validation : Elapsed

def measurement (lib : Decoders) (req : Request) (clock : Clock) (o : Outcome) : Measurement :=
  let t := transport o
  let content := contentObservation lib t.chunks.flatten t.selected req.mode req.condition
  { request := req
    startedUtc := clock.startedUtc
    transport := t
    content := if t.complete then content else content.incomplete
    latency := clock.latency
    validation := clock.validation }

def measureRequest (lib : Decoders) (req : Request) (clock : Clock) (o : Outcome) : Row :=
  (measurement lib req clock o).row

/-! ## The line in the file -/

/-- `json.dumps(row, sort_keys=True, allow_nan=False) + "\n"`; `none` for `ValueError`. -/
def writeRow (py : Numbers) (row : Row) : Option Text :=
  if Value.finite (.dict row) then
    some (Value.dumps py.repr [' '] (Value.sortKeys (.dict row)) ++ ['\n'])
  else none

/-- `json.loads(line)` -/
def readRow (py : Numbers) (line : Text) : Option Value :=
  Value.loads py.int py.float (Str.ofText line)

/-! ## Fields -/

/-- The keys of a row, in their order. -/
def KEYS : List Str :=
  ["schema_version", "trial_id", "system", "mode", "condition", "request_id", "phase",
    "started_utc", "status", "transport_complete", "success", "exception_category", "timeout",
    "content_encoding", "content_type", "response_mode", "adaptive_mode",
    "response_completeness", "network_quality", "cache_status", "latency_ms", "encoded_bytes",
    "encoded_sha256", "decoded_bytes", "decoded_sha256", "encoding_valid", "validation_error",
    "json_valid", "item_count", "item_retention", "required_present", "optional_present",
    "required_by_field", "optional_by_field", "required_values_preserved", "field_coverage",
    "reduced", "fixture_valid", "metadata_valid", "mode_valid", "validation_ms",
    "valid_response"]

theorem keys_row (m : Measurement) : m.row.map Prod.fst = KEYS := by
  simp only [Measurement.row, Measurement.head, Content.items, Measurement.tail, List.map_cons,
    List.map_nil, List.cons_append, List.nil_append]
  rfl

theorem nodup_KEYS : KEYS.Nodup := by decide +kernel

theorem nodup_row (m : Measurement) : (m.row.map Prod.fst).Nodup := by
  rw [keys_row]
  exact nodup_KEYS

/-- A value of the row, by its place in it. -/
theorem lookup_row {m : Measurement} {key : Str} {v : Value} {i : Nat}
    (h : m.row[i]? = some (key, v)) : Dict.lookup key m.row = some v :=
  (Dict.mem_items_iff (d := ⟨m.row, nodup_row m⟩)).mp (List.mem_of_getElem? h)

theorem item_row {m : Measurement} {key : Str} {v : Value} {i : Nat}
    (h : m.row[i]? = some (key, v)) : item m.row key = v := by
  rw [item, lookup_row h, Option.getD_some]

theorem item_sorted {m : Measurement} {key : Str} {v : Value} {i : Nat}
    (h : m.row[i]? = some (key, v)) (hsorted : v.sortKeys = v) :
    item (Value.sortItems m.row) key = v := by
  rw [item, Value.lookup_sortItems (nodup_row m), lookup_row h, Option.map_some, hsorted,
    Option.getD_some]

theorem sortKeys_optional {α : Type} {f : α → Value} (hf : ∀ a, (f a).sortKeys = f a)
    (o : Option α) : (optional f o).sortKeys = optional f o := by
  cases o with
  | none => rfl
  | some a => exact hf a

/-- What the checks read of a row. -/
structure Measurement.Fields (m : Measurement) (row : Row) : Prop where
  schemaVersion : item row "schema_version" = .int 2
  trialId : item row "trial_id" = ofText m.request.trialId
  system : item row "system" = ofText m.request.mode
  mode : item row "mode" = ofText m.request.mode
  condition : item row "condition" = ofText m.request.condition
  requestId : item row "request_id" = .int m.request.requestId
  phase : item row "phase" = ofText m.request.phase
  status : item row "status" = .int m.transport.status
  transportComplete : item row "transport_complete" = .bool m.transport.complete
  success : item row "success" = .bool m.success
  timeout : item row "timeout" = .bool ((m.transport.caught.map Failure.timeout).getD false)
  cacheStatus : item row "cache_status" = m.column "x-cache-status"
  latency : item row "latency_ms" = .float m.latency.ms
  encodedBytes : item row "encoded_bytes" = .int m.transport.size
  decodedBytes : item row "decoded_bytes" =
    optional (fun n : Nat => .int n) m.content.decodedBytes
  encodingValid : item row "encoding_valid" = .bool m.content.encodingValid
  jsonValid : item row "json_valid" = optional .bool m.content.jsonValid
  itemCount : item row "item_count" = optional (fun n : Nat => .int n) m.content.itemCount
  itemRetention : item row "item_retention" = optional .float m.content.itemRetention
  requiredPresent : item row "required_present" =
    optional (fun n : Nat => .int n) m.content.requiredPresent
  optionalPresent : item row "optional_present" =
    optional (fun n : Nat => .int n) m.content.optionalPresent
  preserved : item row "required_values_preserved" =
    optional .bool m.content.requiredValuesPreserved
  coverage : item row "field_coverage" = optional .float m.content.fieldCoverage
  reduced : item row "reduced" = optional .bool m.content.reduced
  fixtureValid : item row "fixture_valid" = .bool m.content.fixtureValid
  metadataValid : item row "metadata_valid" = .bool m.content.metadataValid
  modeValid : item row "mode_valid" = .bool m.content.modeValid
  validResponse : item row "valid_response" = .bool m.valid

theorem fields_sorted (m : Measurement) : m.Fields (Value.sortItems m.row) where
  schemaVersion := item_sorted (i := 0) rfl rfl
  trialId := item_sorted (i := 1) rfl rfl
  system := item_sorted (i := 2) rfl rfl
  mode := item_sorted (i := 3) rfl rfl
  condition := item_sorted (i := 4) rfl rfl
  requestId := item_sorted (i := 5) rfl rfl
  phase := item_sorted (i := 6) rfl rfl
  status := item_sorted (i := 8) rfl rfl
  transportComplete := item_sorted (i := 9) rfl rfl
  success := item_sorted (i := 10) rfl rfl
  timeout := item_sorted (i := 12) rfl rfl
  cacheStatus := item_sorted (i := 19) rfl (sortKeys_optional (fun _ => rfl) _)
  latency := item_sorted (i := 20) rfl rfl
  encodedBytes := item_sorted (i := 21) rfl rfl
  decodedBytes := item_sorted (i := 23) rfl (sortKeys_optional (fun _ => rfl) _)
  encodingValid := item_sorted (i := 25) rfl rfl
  jsonValid := item_sorted (i := 27) rfl (sortKeys_optional (fun _ => rfl) _)
  itemCount := item_sorted (i := 28) rfl (sortKeys_optional (fun _ => rfl) _)
  itemRetention := item_sorted (i := 29) rfl (sortKeys_optional (fun _ => rfl) _)
  requiredPresent := item_sorted (i := 30) rfl (sortKeys_optional (fun _ => rfl) _)
  optionalPresent := item_sorted (i := 31) rfl (sortKeys_optional (fun _ => rfl) _)
  preserved := item_sorted (i := 34) rfl (sortKeys_optional (fun _ => rfl) _)
  coverage := item_sorted (i := 35) rfl (sortKeys_optional (fun _ => rfl) _)
  reduced := item_sorted (i := 36) rfl (sortKeys_optional (fun _ => rfl) _)
  fixtureValid := item_sorted (i := 37) rfl rfl
  metadataValid := item_sorted (i := 38) rfl rfl
  modeValid := item_sorted (i := 39) rfl rfl
  validResponse := item_sorted (i := 41) rfl rfl

/-! ## Identity -/

def Request.identity (r : Request) : Identity where
  trialId := .ofText r.trialId
  condition := .ofText r.condition
  mode := .ofText r.mode
  phase := .ofText r.phase
  requestId := r.requestId

/-- A row has the identity that its request was called with. -/
theorem identity_measureRequest (lib : Decoders) (req : Request) (clock : Clock) (o : Outcome) :
    identity (measureRequest lib req clock o) = req.identity.values := by
  have htrial : item (measureRequest lib req clock o) "trial_id" = ofText req.trialId :=
    item_row (i := 1) rfl
  have hmode : item (measureRequest lib req clock o) "mode" = ofText req.mode :=
    item_row (i := 3) rfl
  have hcondition : item (measureRequest lib req clock o) "condition" = ofText req.condition :=
    item_row (i := 4) rfl
  have hid : item (measureRequest lib req clock o) "request_id" = .int req.requestId :=
    item_row (i := 5) rfl
  have hphase : item (measureRequest lib req clock o) "phase" = ofText req.phase :=
    item_row (i := 6) rfl
  simp only [identity, IDENTITY, List.map_cons, List.map_nil, htrial, hcondition, hmode, hphase,
    hid]
  rfl

end Study
end AdaptiveGateway
