/-
The offline write queue and the sync worker, as programs over the commands of
`Queue.World`.

Each definition is the coroutine of the same name, with one command for every
`await` and every reading of the clock.  `machine` puts any number of workers and
of request handlers that call `enqueue_write` side by side.
-/
import AdaptiveGateway.Queue.World
import AdaptiveGateway.Concurrent.Pool

namespace AdaptiveGateway
namespace Queue

open Codec Concurrent

abbrev Prog := Concurrent.Prog Cmd Ans Exc

def await (c : Cmd) : Prog (Ans c) := Concurrent.Prog.issue c

def writeMethods : List Text := ["POST", "PUT", "PATCH", "DELETE"]

/-! ## `ensure_group` and `enqueue_write` -/

/-- `ensure_group`; a group that exists already is no error. -/
def ensureGroup : Prog Unit := do
  let _ ← await .xgroupCreate
  return ()

/-- The arguments of `enqueue_write`. -/
structure Write where
  method : Text
  url : Text
  path : Text
  headers : Dict Text Text
  body : Bytes
  clientId : Option Text

def headersJson (h : Dict Text Text) : Json := .obj (h.items.map fun e => (e.1, .str e.2))

/-- The admission checks of `enqueue_write`. -/
def admits (cfg : Config) (w : Write) : Bool :=
  match destinationService cfg w.url with
  | some (some service) =>
    writeMethods.contains w.method && (cfg.getRouteRule service).queueWrites &&
      !((w.headers.get? "idempotency-key").getD []).isEmpty &&
      decide (w.body.length ≤ cfg.settings.maxRequestBodyBytes)
  | _ => false

/-- The stream entry of a write. -/
def entry (w : Write) (now : Time) : Fields Text where
  method := some w.method
  url := some w.url
  path := some w.path
  headers := some (headersJson w.headers).dumps
  body := some (latin1 w.body)
  clientId := some (w.clientId.getD [])
  timestamp := some (some now)

def enqueueWrite (cfg : Config) (w : Write) : Prog EntryId :=
  if admits cfg w then do
    let now ← await .time
    let result ← await (.xadd cfg.settings.queueMaxDepth (entry w now))
    match result with
    | none => .raise .valueError
    | some id => return id
  else .raise .valueError

/-! ## The replay lease -/

/-- `acquire_lock(f"replay:{msg_id}", ttl)`. -/
def acquireLock (m : EntryId) (ttl : Nat) : Prog (Option Token) := do
  let token ← await .tokenHex
  Prog.except (do
      let acquired ← await (.setNx m token ttl)
      return if acquired then some token else none)
    fun e => if e = .redisError then some (.ret none) else none

/-- `release_lock(f"replay:{msg_id}", token)`. -/
def releaseLock (m : EntryId) (token : Token) : Prog Unit :=
  Prog.except (await (.getDel m token)) fun e => if e = .redisError then some (.ret ()) else none

/-! ## Terminal outcomes -/

/-- `_ack`. -/
def ack (m : EntryId) : Prog Unit := do
  await (.xack m)
  await (.xdel m)
  await (.hdelAttempts m)
  await (.hdelDue m)

/-- `json.loads(fields.get("headers", "{}"))`, if it is a mapping. -/
def loadHeaders (f : Fields Text) : Option (Dict Text Json) :=
  match Json.loads (f.headers.getD "{}".toList) with
  | some (.obj ms) => some (Dict.ofPairs ms)
  | _ => none

/-- `json.loads(fields.get("headers", "{}"))` raises `RecursionError`. -/
def headersTooDeep (cfg : Config) (f : Fields Text) : Bool :=
  cfg.recursionLimit.exceeded (f.headers.getD "{}".toList)

def deadLetterHeaders : List Text := ["content-type", "idempotency-key"]

/-- The row `_dead_letter` adds. -/
def failedRequest (f : Fields Text) (attempts : Nat) (error : Option Text) : FailedRequest where
  method := f.method.getD []
  path := f.path.getD []
  headers := (((loadHeaders f).getD Dict.empty).filter
    fun e => deadLetterHeaders.contains (lower e.1)).items
  body := f.body
  clientId := f.clientId.filter (!·.isEmpty)
  retries := attempts
  lastError := error

def deadLetter (cfg : Config) (m : EntryId) (f : Fields Text) (attempts : Nat)
    (error : Option Text) : Prog Unit :=
  if headersTooDeep cfg f then .raise .recursionError
  else await (.commit m (failedRequest f attempts error))

/-! ## `_deliver` -/

/-- `_backoff_seconds`. -/
def backoffSeconds (cfg : Config) (attempts : Nat) : Nat :=
  let schedule := cfg.settings.queueBackoffSchedule
  let idx := min (attempts - 1) (schedule.length - 1)
  schedule.getD idx 0

/-- `_attempts`. -/
def attemptsOf (m : EntryId) : Prog Nat := do
  let raw ← await (.hgetAttempts m)
  return raw.getD 0

def digitsVal (t : Text) : Nat :=
  t.foldl (fun n c => if Json.isDigit c then n * 10 + (c.toNat - 48) else n) 0

/-- Truth of a number literal: an integer unless it is zero, a float unless it
rounds to zero, which it does up to half the smallest subnormal. -/
def numTruthy (lit : Text) : Bool :=
  if [("NaN" : Text), "Infinity", "-Infinity"].contains lit then true
  else
    let mantissa := lit.takeWhile fun c => c != 'e' && c != 'E'
    let exponent := lit.drop (mantissa.length + 1)
    let places := ((mantissa.dropWhile (· != '.')).drop 1).length
    let d := digitsVal mantissa
    if places == 0 && exponent.isEmpty then d != 0
    else if exponent.head? = some '-' then
      decide (10 ^ (places + digitsVal exponent) < d * 2 ^ 1075)
    else decide (10 ^ places < d * 10 ^ digitsVal exponent * 2 ^ 1075)

/-- Python truth of a parsed JSON value. -/
def truthy : Json → Bool
  | .null => false
  | .bool b => b
  | .num lit => numTruthy lit
  | .str s => !s.isEmpty
  | .arr xs => !xs.isEmpty
  | .obj ms => !ms.isEmpty

/-- Whether an entry may still be sent, given the service its URL belongs to. -/
def eligible (cfg : Config) (f : Fields Text) (headers : Dict Text Json)
    (service : Option Text) (expired : Bool) : Bool :=
  match service with
  | none => false
  | some service =>
    (cfg.getRouteRule service).queueWrites &&
      (match f.method with
        | some method => writeMethods.contains method
        | none => false) &&
      (match headers.get? "idempotency-key" with
        | some key => truthy key
        | none => false) &&
      !expired

/-- `time.time() - float(timestamp) > queue_max_age_seconds`. -/
def isExpired (cfg : Config) (now timestamp : Time) : Bool :=
  decide (timestamp + seconds cfg.settings.queueMaxAgeSeconds < now)

/-- How the upstream call of `_deliver` came out. -/
structure Outcome where
  success : Bool
  retryable : Bool
  error : Option Text
deriving DecidableEq

def statusOutcome (status : Nat) : Outcome where
  success := decide (200 ≤ status ∧ status < 300)
  retryable := decide (status ≥ 500) || status == 408 || status == 429
  error := if 200 ≤ status ∧ status < 300 then none
    else some (("upstream " : Text) ++ (toString status).toList)

/-- `except (httpx.HTTPError, BodyTooLarge, TimeoutError) as exc`. -/
def transportName : Exc → Option Text
  | .httpError e => some e.name
  | .bodyTooLarge => some "BodyTooLarge"
  | .timeoutError => some "TimeoutError"
  | _ => none

/-- The replay request, whose parts may be missing or not encodable. -/
def replayRequest (f : Fields Text) (headers : Dict Text Json) :
    Except Exc (HttpRequest (Dict Text Json)) :=
  match f.method, f.url with
  | some method, some url =>
    match latin1Encode (f.body.getD []) with
    | some content => .ok ⟨method, url, headers, content⟩
    | none => .error .unicodeError
  | _, _ => .error .keyError

def upstreamCall (cfg : Config) (m : EntryId) (f : Fields Text) (headers : Dict Text Json) :
    Prog Outcome :=
  Prog.except (do
      let req ← Prog.ofExcept (replayRequest f headers)
      await (.send m req)
      let answer ← await (.recv m)
      let resp ← Prog.ofExcept (boundedResponse cfg answer)
      return statusOutcome resp.status)
    fun e => (transportName e).map fun name => .ret ⟨false, true, some name⟩

def maxAttempts (cfg : Config) : Nat := cfg.settings.queueMaxRetries + 1

/-- `_deliver` from the point where the entry is found fit to be sent. -/
def replay (cfg : Config) (m : EntryId) (f : Fields Text) (headers : Dict Text Json)
    (attempts : Nat) : Prog Unit := do
  -- The budget is spent before the request is made.
  await (.hsetAttempts m attempts)
  let now ← await .time
  await (.hsetDue m (now + seconds (backoffSeconds cfg attempts)))
  let outcome ← upstreamCall cfg m f headers
  if outcome.success then ack m
  else if attempts ≥ maxAttempts cfg || !outcome.retryable then do
    deadLetter cfg m f attempts outcome.error
    ack m
  else return ()

/-- `_deliver` from the point where the entry is found due. -/
def deliverDue (cfg : Config) (m : EntryId) (f : Fields Text) : Prog Unit := do
  let attempts := (← attemptsOf m) + 1
  if headersTooDeep cfg f then .raise .recursionError
  else
    match loadHeaders f, destinationService cfg (f.url.getD []) with
    | some headers, some service => do
      let now ← await .time
      match f.timestamp.getD (some 0) with
      | none => .raise .valueError
      | some timestamp =>
        if !eligible cfg f headers service (isExpired cfg now timestamp) ||
            attempts > maxAttempts cfg then do
          deadLetter cfg m f (attempts - 1) (some "replay ineligible or expired")
          ack m
        else replay cfg m f headers attempts
    | _, _ => .raise .valueError

def deliver (cfg : Config) (m : EntryId) (f : Fields Text) : Prog Unit := do
  match ← await (.hgetDue m) with
  | none => deliverDue cfg m f
  | some due => do
    let now ← await .time
    if now < due then return () else deliverDue cfg m f

/-! ## Reading an entry back -/

theorem headersJson_plain (h : Dict Text Text) : (headersJson h).Plain := by
  have hnodup : ((h.mapVal Json.str).items.map Prod.fst).Nodup := (h.mapVal Json.str).nodup
  exact ⟨hnodup, Json.plainMembers_str h.items⟩

/-- The headers survive their time in the stream. -/
theorem loadHeaders_entry (w : Write) (now : Time) :
    loadHeaders (entry w now) = some (w.headers.mapVal Json.str) := by
  have hloads : Json.loads (headersJson w.headers).dumps = some (headersJson w.headers) :=
    Json.loads_dumps (headersJson_plain w.headers)
  simp only [loadHeaders, entry, Option.getD_some, hloads]
  exact congrArg some (Dict.ofPairs_items (w.headers.mapVal Json.str))

/-- An entry that was written by `enqueue_write` is never nested too deep. -/
theorem headersTooDeep_entry (cfg : Config) (w : Write) (now : Time) :
    headersTooDeep cfg (entry w now) = false :=
  cfg.recursionLimit.flat w.headers.items

/-- The replay request of an entry is made of the parts of its write. -/
theorem replayRequest_entry (w : Write) (now : Time) (headers : Dict Text Json) :
    replayRequest (entry w now) headers = .ok ⟨w.method, w.url, headers, w.body⟩ := by
  simp only [replayRequest, entry, Option.getD_some, latin1Encode_latin1]

/-! ## `_handle`, `_tick` and `run` -/

/-- `except (ValueError, KeyError, TypeError, UnicodeError)`. -/
def isMalformed : Exc → Bool
  | .valueError | .keyError | .typeError | .unicodeError => true
  | _ => false

/-- The handler for malformed entries. -/
def bury (cfg : Config) (m : EntryId) (f : Fields Text) : Prog Unit := do
  let attempts ← attemptsOf m
  deadLetter cfg m f attempts (some "malformed queue entry")
  ack m

def handleLeased (cfg : Config) (m : EntryId) (f : Fields Text) (lease : Token) : Prog Unit :=
  Prog.finally_
    (Prog.except (deliver cfg m f) fun e => if isMalformed e then some (bury cfg m f) else none)
    (releaseLock m lease)

def handle (cfg : Config) (m : EntryId) (f : Fields Text) : Prog Unit := do
  match ← acquireLock m cfg.settings.queueClaimIdleSeconds with
  | none => return ()
  | some lease => handleLeased cfg m f lease

/-- An entry of a reply of `XAUTOCLAIM`, whose fields may be absent. -/
def handleClaimed (cfg : Config) (e : EntryId × Option (Fields Text)) : Prog Unit :=
  match e.2 with
  | some f => handle cfg e.1 f
  | none => return ()

def tick (cfg : Config) : Prog Unit := do
  let new ← await (.xreadgroup 16)
  Prog.forEach (fun e => handle cfg e.1 e.2) new
  let cursor ← await .cursor
  let claimed ← await (.xautoclaim (seconds cfg.settings.queueClaimIdleSeconds) cursor 64)
  await (.setCursor claimed.1)
  Prog.forEach (handleClaimed cfg) claimed.2

/-- One round of `run`.  A worker survives every exception but its own
cancellation. -/
def round (cfg : Config) : Prog (Option EntryId) := do
  Prog.except (do ensureGroup; tick cfg) fun e => if e = .cancelled then none else some (.ret ())
  return none

def boot (cfg : Config) (writes : Nat → Write) : Thread → Prog (Option EntryId)
  | .worker _ => round cfg
  | .client n => do
    let id ← enqueueWrite cfg (writes n)
    return some id

def again (cfg : Config) : Thread → Except Exc (Option EntryId) → Option (Prog (Option EntryId))
  | .worker _, .ok _ => some (round cfg)
  | _, _ => none

/-- Workers without end, and one request handler for every element of `writes`. -/
def machine (cfg : Config) (writes : Nat → Write) :
    Machine Thread Cmd Ans Exc (Option EntryId) World Choice Time where
  exec := exec
  env d s := some (advance d s)
  drop := dropThread
  boot := boot cfg writes
  again := again cfg

/-! ## The setting of the queue tests -/

/-- The write of `_queued`. -/
def mockWrite : Write where
  method := "PATCH"
  url := "http://mock.test/items?q=1"
  path := "/proxy/mock/items"
  headers := ⟨[("idempotency-key", "unique"), ("authorization", "Bearer private"),
    ("content-type", "application/octet-stream")], by decide⟩
  body := [0x00, 0xff]
  clientId := some "test"

/-- The next `n` commands of a thread succeed. -/
def steps (i : Thread) (n : Nat) : List (Label Thread Choice Time) :=
  List.replicate n (.act i .ok)

end Queue
end AdaptiveGateway
