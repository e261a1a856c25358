/-
The part of the configuration that the proxy, the optimizer and the offline queue
read.

Durations are counted in microseconds.  The values are those of a `Settings`
object after validation together with the active route rules, which always hold
a `_default` entry.
-/
import AdaptiveGateway.Codec.Json

namespace AdaptiveGateway

open Codec

/-- Microseconds. -/
abbrev Time := Nat

def seconds (n : Nat) : Time := n * 1000000

structure RouteRule where
  cacheable : Bool := true
  cacheTtl : Nat := 60
  upstreamTimeout : Option Time := none
  queueWrites : Bool := false
  optionalFields : List Text := []
deriving DecidableEq, Repr

/-- `ROUTE_RULES`. -/
structure RouteRules where
  rules : Dict Text RouteRule
  default : RouteRule
  hasDefault : rules.get? "_default" = some default

/-- The values of `response_mode`. -/
inductive ResponseMode where
  | adaptive | full | compression | removal | combined
deriving DecidableEq, Repr

def ResponseMode.value : ResponseMode → Text
  | adaptive => "adaptive"
  | full => "full"
  | compression => "compression"
  | removal => "removal"
  | combined => "combined"

structure Settings where
  adaptationEnabled : Bool := true
  responseMode : ResponseMode := .adaptive
  upstreamServices : Dict Text Text
  upstreamTimeout : Time := seconds 10
  allowUnlistedUpstreams : Bool := false
  upstreamDiscoveryDomains : List Text := []
  maxRequestBodyBytes : Nat := 1048576
  maxResponseBodyBytes : Nat := 8388608
  revalidateLockTtlSeconds : Nat := 10
  queueMaxRetries : Nat := 4
  queueBackoffSchedule : List Nat := [5, 30, 120, 600]
  queueClaimIdleSeconds : Nat := 60
  queueMaxAgeSeconds : Nat := 3600
  queueMaxDepth : Nat := 10000
  /-- "Queue backoff must contain positive delays" -/
  backoff_ne : queueBackoffSchedule ≠ []
  backoff_pos : ∀ d ∈ queueBackoffSchedule, 0 < d
  /-- "Queue claim idle time must exceed upstream timeout" -/
  claim_gt : upstreamTimeout < seconds queueClaimIdleSeconds

/-- The texts on which `json.loads` runs out of stack.  An object of strings, which is how
headers are written, is not nested. -/
structure RecursionLimit where
  exceeded : Text → Bool
  flat : ∀ h : List (Text × Text),
    exceeded (Json.obj (h.map fun e => (e.1, .str e.2))).dumps = false

/-- Everything a request or a worker reads besides its input.  `netlocOk` is the
address check inside `urlsplit`. -/
structure Config where
  settings : Settings
  rules : RouteRules
  netlocOk : Text → Bool
  recursionLimit : RecursionLimit

def Config.getRouteRule (cfg : Config) (service : Text) : RouteRule :=
  (cfg.rules.rules.get? service).getD cfg.rules.default

/-! ## The setting of the tests -/

def mockSettings : Settings where
  upstreamServices := ⟨[("mock", "http://mock.test")], by decide⟩
  backoff_ne := by decide
  backoff_pos := by decide
  claim_gt := by decide

def mockRules : RouteRules where
  rules := ⟨[("_default", {}), ("mock", { queueWrites := true })], by decide⟩
  default := {}
  hasDefault := by decide

def noLimit : RecursionLimit := ⟨fun _ => false, fun _ => rfl⟩

/-- The service `mock`, with queueing switched on.  The host is plain ASCII, so
the address check is never asked. -/
def mockConfig : Config := ⟨mockSettings, mockRules, fun _ => true, noLimit⟩

end AdaptiveGateway
