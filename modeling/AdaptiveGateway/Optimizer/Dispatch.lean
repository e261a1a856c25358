/-
The response optimizer around a proxied read.

`dispatch` decides from the mode, the tier of the client and the cache origin
whether to reduce a JSON body and whether to compress it, negotiates the coding,
and rebuilds the response around what it sends.  `plan` holds the decisions about
the body; `headers` is the header map of the rebuilt response.

`gzip.compress` belongs to a library and is a parameter, like what the transformation of
a body takes from the interpreter.
-/
import AdaptiveGateway.Optimizer.Transform
import AdaptiveGateway.Proxy.Message

namespace AdaptiveGateway

open Codec Numeric
open Binary64 (zero one)

namespace Optimizer

open Proxy (Request Response NetworkQuality)

/-- What the optimizer takes from libraries and from the interpreter. -/
structure Libraries extends Interpreter where
  /-- `gzip.compress(_, compresslevel=9, mtime=0)` -/
  compress : Bytes → Bytes

/-! ## Negotiation -/

/-- The weight that the parameters of a coding give it. -/
def codingQuality (py : Numbers) (parameters : List Text) : Binary64 :=
  parameters.foldl (fun quality parameter =>
    let p := partition '=' (strip parameter)
    if p.1 = ("q" : Text) then (py.float p.2).getD zero else quality) one

/-- `_accepted_codings`. -/
def acceptedCodings (py : Numbers) (value : Text) : Dict Text Bool :=
  Dict.ofPairs ((splitOn ',' (lower value)).map fun part =>
    let pieces := splitOn ';' (strip part)
    let quality := codingQuality py pieces.tail
    (pieces.headD [], zero.lt quality && quality.le one))

/-- `_accepts_gzip`. -/
def acceptsGzip (py : Numbers) (value : Text) : Bool :=
  let codings := acceptedCodings py value
  (codings.get? "gzip").getD ((codings.get? "*").getD false)

/-- `_accepts_identity`. -/
def acceptsIdentity (py : Numbers) (value : Text) : Bool :=
  let codings := acceptedCodings py value
  (codings.get? "identity").getD ((codings.get? "*").getD true)

/-! ## Decisions -/

/-- `_is_json`. -/
def isJson (r : Response) : Bool :=
  let ctype := (r.header "content-type").getD []
  let mediaType := lower (strip (partition ';' ctype).1)
  mediaType == ("application/json" : Text) || ("+json" : Text).isSuffixOf mediaType

/-- The attributes of `request.state` that the proxy sets for the optimizer. -/
structure State where
  optimizable : Bool
  optionalFields : List Text
  servedFromCache : Bool

/-- None of the early returns of `dispatch` is taken. -/
def eligible (req : Request) (st : State) (r : Response) : Bool :=
  st.optimizable && isJson r && !(r.status != 200 || req.method != ("GET" : Text)) &&
    !hasSubstring "no-transform" (lower ((r.header "cache-control").getD [])) &&
    !(r.header "content-encoding").isSome

def GZIP_MIN_SIZE : Nat := 256

/-- `settings.response_mode if settings.adaptation_enabled else "full"`. -/
def modeOf (cfg : Settings) : ResponseMode :=
  if cfg.adaptationEnabled then cfg.responseMode else .full

section

variable (mode : ResponseMode) (quality : NetworkQuality) (servedFromCache : Bool)

def degradedLike : Bool := quality == .degraded || quality == .poor && servedFromCache

def usesSkeleton : Bool := mode == .adaptive && quality == .poor && !servedFromCache

def removesFields : Bool :=
  mode == .removal || mode == .combined ||
    mode == .adaptive && degradedLike quality servedFromCache

def compresses : Bool :=
  mode == .compression || mode == .combined ||
    mode == .adaptive && (quality == .degraded || quality == .poor)

end

/-- `new_body` before compression. -/
def reduce (lib : Libraries) (mode : ResponseMode) (quality : NetworkQuality) (st : State)
    (body : Bytes) : Bytes :=
  if removesFields mode quality st.servedFromCache && !body.isEmpty then
    transformJson lib.toInterpreter body st.optionalFields false
  else if usesSkeleton mode quality st.servedFromCache && !body.isEmpty then
    transformJson lib.toInterpreter body st.optionalFields true
  else body

/-- The compressed body, if it is the one that is sent. -/
def gzip (lib : Libraries) (mode : ResponseMode) (req : Request) (r : Response)
    (newBody : Bytes) : Option Bytes :=
  if compresses mode req.networkQuality &&
      acceptsGzip lib.py ((req.header "accept-encoding").getD []) &&
      !(r.rawHeaders.any fun e => lower e.1 == ("content-encoding" : Text)) &&
      decide (GZIP_MIN_SIZE ≤ newBody.length) &&
      decide ((lib.compress newBody).length < newBody.length) then
    some (lib.compress newBody)
  else none

/-- What `dispatch` decides to send. -/
structure Plan where
  mode : ResponseMode
  skeleton : Bool
  reducedBody : Bytes
  gzipped : Option Bytes

def Plan.sent (p : Plan) : Bytes := p.gzipped.getD p.reducedBody

def plan (lib : Libraries) (cfg : Settings) (req : Request) (st : State) (r : Response) : Plan :=
  let mode := modeOf cfg
  let newBody := reduce lib mode req.networkQuality st r.content
  ⟨mode, usesSkeleton mode req.networkQuality st.servedFromCache, newBody,
    gzip lib mode req r newBody⟩

/-! ## Headers -/

/-- `[part.strip() for part in value.split(",") if part.strip()]`. -/
def members (value : Text) : List Text :=
  ((splitOn ',' value).map strip).filter fun part => !part.isEmpty

/-- What the choice of a representation depends on. -/
def varyNames : List Text := ["Accept-Encoding", "X-Client-RTT", "ECT", "Save-Data"]

def addName (vary : List Text) (name : Text) : List Text :=
  if (vary.map lower).contains (lower name) then vary else vary ++ [name]

/-- The new value of `Vary`. -/
def varyValue (r : Response) : Text :=
  [',', ' '].intercalate (varyNames.foldl addName (members ((r.header "vary").getD [])))

def Plan.adaptiveMode (p : Plan) (body : Bytes) : Text :=
  if p.skeleton ∧ p.reducedBody ≠ body then "skeleton"
  else if p.reducedBody ≠ body then "stripped"
  else "none"

/-- The header map that describes what is sent. -/
def Plan.description (p : Plan) (r : Response) : Dict Text Text :=
  let headers := Dict.firsts r.rawHeaders
  let headers := (headers.set "vary" (varyValue r)).erase "content-length"
  let headers := if p.gzipped.isSome then headers.set "content-encoding" "gzip" else headers
  if p.sent ≠ r.content then
    (REPRESENTATION_HEADERS.foldl Dict.erase headers).set "cache-control" "private, no-store"
  else headers

/-- The header map of the rebuilt response, with the markers of the optimizer. -/
def Plan.headers (p : Plan) (r : Response) : Dict Text Text :=
  (((p.description r).set "x-response-mode" p.mode.value).set "x-adaptive-mode"
    (p.adaptiveMode r.content)).set "x-response-completeness"
    (if p.reducedBody ≠ r.content then "reduced" else "full")

/-- The answer to a client that accepts no coding that can be supplied. -/
def notAcceptable (r : Response) : Except Exc Response :=
  Response.make [] 406
    ⟨[("vary", varyValue r), ("cache-control", "no-store")], by simp⟩ none

def isSetCookie (e : Text × Text) : Bool := decide (e.1 = ("set-cookie" : Text))

/-- `ResponseOptimizerMiddleware.dispatch`, on the response of the route.  A response
that comes out of the inner application has no media type of its own. -/
def dispatch (lib : Libraries) (cfg : Settings) (req : Request) (st : State) (r : Response) :
    Except Exc Response :=
  if eligible req st r then
    let p := plan lib cfg req st r
    if p.gzipped.isNone && !acceptsIdentity lib.py ((req.header "accept-encoding").getD []) then
      notAcceptable r
    else
      match Response.make p.sent r.status (p.headers r) none with
      | .error e => .error e
      | .ok out => .ok { out with
          rawHeaders := (out.rawHeaders.filter fun e => !isSetCookie e) ++
            r.rawHeaders.filter isSetCookie }
  else .ok r

end Optimizer

end AdaptiveGateway
