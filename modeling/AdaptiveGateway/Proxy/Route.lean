/-
The proxy route, from the bytes of a request to its handler.

`proxy` looks up the upstream, forms the address, and hands the request to
`_handle_get` or `_handle_write`, or answers it by itself.  A request arrives as the
server leaves it in the scope: the path is decoded, the query string and the header
lines are bytes.  Starlette reads header lines as Latin-1.  An upstream's header lines
are bytes as well, which httpx reads as UTF-8 if all of them are, and else as Latin-1.
-/
import AdaptiveGateway.Proxy.Cache
import AdaptiveGateway.Proxy.Write

namespace AdaptiveGateway
namespace Proxy

open Codec

/-! ## Requests as they arrive -/

structure Incoming where
  method : Text
  scheme : Text := "http"
  /-- The path parameters of the route `/proxy/{service}/{path:path}`. -/
  service : Text
  path : Text
  queryString : Bytes := []
  headers : List (Bytes × Bytes)
  body : Bytes := []
  /-- The authority that Starlette takes if there is no `Host` line. -/
  server : Text := []
  userId : Option Text := none
  /-- `client_ip(request)` -/
  clientIp : Text
  networkQuality : NetworkQuality := .good

namespace Incoming

/-- `bytes.lower()`. -/
def lowerBytes (b : Bytes) : Bytes := b.map fun x => if 65 ≤ x ∧ x ≤ 90 then x + 32 else x

/-- `request.headers.items()`. -/
def lines (inc : Incoming) : List (Text × Text) := inc.headers.map fun e => (latin1 e.1, latin1 e.2)

/-- `scope["path"]`. -/
def scopePath (inc : Incoming) : Text :=
  ("/proxy/" : Text) ++ inc.service ++ '/' :: inc.path

/-- `str(request.url)`; `none` where the query string is not UTF-8. -/
def url (inc : Incoming) : Option Text :=
  let host := (Dict.lookup ("host" : Text) inc.lines).getD inc.server
  let query := if inc.queryString.isEmpty then some []
    else (utf8Decode inc.queryString).map ('?' :: ·)
  query.map fun q => inc.scheme ++ ("://" : Text) ++ host ++ inc.scopePath ++ q

/-- The components of `request.url`; `none` where it raises a `ValueError`. -/
def urlParts (cfg : Config) (inc : Incoming) : Option Url.Split :=
  inc.url.bind (Url.urlsplit cfg.netlocOk)

/-- The request as the handlers see it. -/
def request (inc : Incoming) (urlPath : Text) : Request where
  method := inc.method
  headers := inc.lines
  path := urlPath
  userId := inc.userId
  clientIp := inc.clientIp
  networkQuality := inc.networkQuality

/-- `BodyLimitMiddleware` lets the request through. -/
def passesBoundary (cfg : Config) (inc : Incoming) : Bool :=
  match inc.headers.filter fun e => lowerBytes e.1 == utf8 "host" with
  | [e] =>
    let host := latin1 e.2
    match Url.urlsplit cfg.netlocOk ('/' :: '/' :: host) with
    | none => false
    | some parsed =>
      let hostPort := Url.hostPort parsed.netloc
      Url.isAscii host && !hostPort.1.isEmpty && parsed.netloc == host && parsed.path.isEmpty &&
        parsed.query.isEmpty && parsed.fragment.isEmpty && !parsed.netloc.contains '@' &&
        !(host.any fun c => isSpace c || c == '\\') && Url.portOk hostPort.2 &&
        decide (inc.body.length ≤ cfg.settings.maxRequestBodyBytes)
  | _ => false

end Incoming

/-! ## `proxy` -/

/-- The base address of a service, and the host name if it was discovered. -/
def destination (cfg : Config) (net : Resolver) (service : Text) : Option (Text × Option Text) :=
  match cfg.settings.upstreamServices.get? service with
  | some base => some (base, none)
  | none => (discoverUpstream cfg net service).map fun d => (d.1, some d.2)

/-- What `proxy` does with a request. -/
inductive Route where
  | answer (r : Except Exc Response)
  | get (g : Cache.GetCall)
  | write (c : WriteCall)

/-- The forwarded headers, with the name of a discovered host. -/
def outgoingHeaders (discoveryHost : Option Text) (r : Request) : Dict Text Text :=
  match discoveryHost with
  | some host => (forwardHeaders r).set "host" host
  | none => forwardHeaders r

def proxy (cfg : Config) (net : Resolver) (inc : Incoming) : Route :=
  match destination cfg net inc.service with
  | none => .answer (detail "unknown upstream service" 404 Dict.empty)
  | some (base, discoveryHost) =>
    match (inc.urlParts cfg).bind fun url =>
        (buildTarget cfg base inc.path url.query).map fun target => (url, target) with
    | none => .answer (detail "invalid upstream path" 400 Dict.empty)
    | some (url, target) =>
      if inc.body.length > cfg.settings.maxRequestBodyBytes then
        .answer (detail "request body too large" 413 Dict.empty)
      else
        let request := inc.request url.path
        let rule := cfg.getRouteRule inc.service
        let fwdHeaders := outgoingHeaders discoveryHost request
        if inc.method = "GET" then .get ⟨request, target, rule, fwdHeaders⟩
        else .write ⟨request, target, fwdHeaders, inc.body, rule.queueWrites⟩

/-! ## The other end -/

/-- An upstream's answer on the wire, with its body decoded. -/
structure RawAnswer where
  status : Nat
  headers : List (Bytes × Bytes)
  body : Bytes

namespace RawAnswer

/-- How httpx reads the header lines of an answer. -/
def decode (raw : RawAnswer) (b : Bytes) : Text :=
  if raw.headers.all fun e => (utf8Decode e.1).isSome && (utf8Decode e.2).isSome then
    (utf8Decode b).getD []
  else latin1 b

/-- The header lines, with the names in lower case. -/
def lines (raw : RawAnswer) : List (Text × Text) :=
  raw.headers.map fun e => (raw.decode (Incoming.lowerBytes e.1), raw.decode e.2)

/-- `httpx.Headers.items()`, which joins the lines of a name. -/
def joined (lines : List (Text × Text)) : Dict Text Text :=
  lines.foldl (fun d e => d.set e.1 (match d.get? e.1 with
    | some v => v ++ (", " : Text) ++ e.2
    | none => e.2)) Dict.empty

def report (raw : RawAnswer) : UpstreamAnswer where
  status := raw.status
  headers := joined raw.lines
  setCookie := Dict.values ("set-cookie" : Text) raw.lines
  body := raw.body

end RawAnswer

/-- What becomes of a request that the HTTP client has taken. -/
inductive Outcome where
  | answer (raw : RawAnswer)
  | httpError (e : HttpError)
  /-- `httpx.InvalidURL`, for a redirect to no address. -/
  | invalidURL
  /-- The `TimeoutError` of `asyncio.timeout`. -/
  | deadline

/-- The HTTP client. -/
structure HttpClient extends CookiePolicy where
  /-- `httpx.URL(_)` does not raise. -/
  acceptsUrl : Text → Bool
  /-- Where an answer from this address redirects to. -/
  redirect : Text → UpstreamAnswer → Option Text

/-- `client.stream` up to the end of the body, with the jar as it is when the request is built
and when the answer comes in.  Redirects are not followed, but the next request is built, and
its cookies are written like those of the first one. -/
def HttpClient.send (client : HttpClient) (jar jar' : Jar) (o : Outcome) (req : Call) :
    Except Exc UpstreamAnswer :=
  if !client.acceptsUrl req.url then .error .invalidURL
  else if !isAsciiMap req.headers then .error .unicodeError
  else if !(client.added jar req).all Url.isAscii then .error .unicodeError
  else match o with
    | .answer raw =>
      let kept := client.extract jar' req.url raw.report
      if (client.redirect req.url raw.report).all fun next =>
          (client.header kept next).all Url.isAscii
      then .ok raw.report
      else .error .unicodeError
    | .httpError e => .error (.httpError e)
    | .invalidURL => .error .invalidURL
    | .deadline => .error .timeoutError

end Proxy
end AdaptiveGateway
