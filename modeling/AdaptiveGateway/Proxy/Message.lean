/-
Requests and responses of the proxy route.

A request is what the handlers read of it.  A response is what Starlette makes
of its constructor's arguments: header names in lower case, every name and value
encoded as Latin-1, and the length and type filled in where they are missing.
`callUpstream` is the one way a handler talks to an upstream, as a command that
stands beside those of the stores.
-/
import AdaptiveGateway.ProxyHttp
import AdaptiveGateway.Concurrent.Prog

namespace AdaptiveGateway
namespace Proxy

open Codec Concurrent

/-! ## Requests -/

inductive NetworkQuality where
  | good | degraded | poor | unknown
deriving DecidableEq, Repr

def NetworkQuality.value : NetworkQuality → Text
  | good => "GOOD"
  | degraded => "DEGRADED"
  | poor => "POOR"
  | unknown => "UNKNOWN"

structure Request where
  method : Text
  /-- `request.headers.items()`: names in lower case, repeated names kept. -/
  headers : List (Text × Text)
  /-- `request.url.path` -/
  path : Text
  /-- `request.state.user_id`, if the caller is known. -/
  userId : Option Text
  clientIp : Text
  networkQuality : NetworkQuality := .good

/-- `request.headers.get(name)`, the first line of that name. -/
def Request.header (r : Request) (name : Text) : Option Text := Dict.lookup name r.headers

/-- The names that only the gateway itself may forward. -/
def ownHeaders : List Text :=
  ["x-forwarded-for", "x-forwarded-host", "x-forwarded-proto", "forwarded", "x-network-quality"]

/-- `_forward_headers`. -/
def forwardHeaders (r : Request) : Dict Text Text :=
  let headers := cleanHeaders ((r.header "connection").getD []) r.headers
  let headers := ownHeaders.foldl Dict.erase headers
  let headers := headers.set "X-Forwarded-For" r.clientIp
  let headers := headers.set "accept-encoding" "identity"
  headers.set "X-Network-Quality" r.networkQuality.value

/-! ## Responses -/

structure Response where
  status : Nat
  /-- Names and values as Latin-1 reads them. -/
  rawHeaders : List (Text × Text)
  content : Bytes
deriving DecidableEq

/-- `response.headers.get(name)`, the first line of that name. -/
def Response.header (r : Response) (name : Text) : Option Text := Dict.lookup name r.rawHeaders

/-- `headers[name] = value` on the lines, which leaves one line of that name. -/
def setHeader (name value : Text) : List (Text × Text) → List (Text × Text)
  | [] => [(lower name, value)]
  | e :: es =>
    if e.1 = lower name then (lower name, value) :: es.filter fun e => decide (e.1 ≠ lower name)
    else e :: setHeader name value es

def Response.setHeader (r : Response) (name value : Text) : Response :=
  { r with rawHeaders := Proxy.setHeader name value r.rawHeaders }

/-- Every character has a Latin-1 code. -/
def isLatin1 (t : Text) : Bool := t.all fun c => decide (c.toNat < 256)

/-- The declared type, with the character set that is added to texts. -/
def contentType (mediaType : Text) : Text :=
  if ("text/" : Text).isPrefixOf mediaType && !hasSubstring "charset=" (lower mediaType) then
    mediaType ++ ("; charset=utf-8" : Text)
  else mediaType

/-- The length and the type, where the headers of these names are missing. -/
def populated (content : Bytes) (status : Nat) (names : List Text) (mediaType : Option Text) :
    List (Text × Text) :=
  let bodyless := decide (status < 200) || status == 204 || status == 304
  (if names.contains "content-length" || bodyless then []
    else [(("content-length" : Text), (toString content.length).toList)]) ++
  (match mediaType with
    | some t => if names.contains "content-type" then []
        else [(("content-type" : Text), contentType t)]
    | none => [])

/-- `Response(content, status_code, headers, media_type)`. -/
def Response.make (content : Bytes) (status : Nat) (headers : Dict Text Text)
    (mediaType : Option Text) : Except Exc Response :=
  let given := headers.items.map fun e => (lower e.1, e.2)
  let raw := given ++ populated content status (given.map Prod.fst) mediaType
  if raw.all fun e => isLatin1 e.1 && isLatin1 e.2 then .ok ⟨status, raw, content⟩
  else .error .unicodeError

theorem Response.make_ok {content : Bytes} {status : Nat} {headers : Dict Text Text}
    {mediaType : Option Text} {r : Response}
    (h : Response.make content status headers mediaType = .ok r) :
    r.status = status ∧ r.content = content ∧
      ∃ more, r.rawHeaders = (headers.items.map fun e => (lower e.1, e.2)) ++ more := by
  simp only [Response.make] at h
  split at h <;> cases h
  exact ⟨rfl, rfl, _, rfl⟩

/-- A JSON answer of the proxy itself. -/
def detail (text : Text) (status : Nat) (headers : Dict Text Text) : Except Exc Response :=
  Response.make (utf8 (("\x7b\"detail\":\"" : Text) ++ text ++ ("\"\x7d" : Text))) status headers
    (some "application/json")

/-- `_response_headers`. -/
def responseHeaders (resp : UpstreamResponse) : Dict Text Text :=
  cleanHeaders ((resp.headers.get? "connection").getD []) resp.headers.items

/-- `_from_upstream`. -/
def fromUpstream (resp : UpstreamResponse) (cacheStatus : Text) : Except Exc Response :=
  let headers := ((responseHeaders resp).erase "set-cookie").set "X-Cache-Status" cacheStatus
  match Response.make resp.content resp.status headers none with
  | .error e => .error e
  | .ok response =>
    if resp.setCookie.all isLatin1 then
      .ok { response with
        rawHeaders := response.rawHeaders ++ resp.setCookie.map fun c => (("set-cookie" : Text), c) }
    else .error .unicodeError

/-! ## The upstream -/

/-- An upstream request as a command. -/
abbrev Call := HttpRequest (Dict Text Text)

abbrev Call.Ans : Call → Type := fun _ => UpstreamAnswer

/-- A cookie that the HTTP client keeps. -/
structure Cookie where
  name : Text
  value : Text
  domain : Text
  path : Text
deriving DecidableEq

/-- The cookies of the one client that all requests share. -/
abbrev Jar := List Cookie

/-- What the client's library does with them. -/
structure CookiePolicy where
  /-- The `Cookie` header of a request for this address. -/
  header : Jar → Text → Option Text
  /-- The jar after this answer from this address. -/
  extract : Jar → Text → UpstreamAnswer → Jar

/-- The `Cookie` header that the client adds to a request that has none. -/
def CookiePolicy.added (policy : CookiePolicy) (jar : Jar) (req : Call) : Option Text :=
  if req.headers.items.any fun e => lower e.1 == ("cookie" : Text) then none
  else policy.header jar req.url

/-- What an upstream request can raise. -/
def Call.raises (e : Exc) : Bool := e != .redisError && e != .dbError

/-- How the surroundings settle an upstream call. -/
def Call.outcome : Choice → Option (Except Exc UpstreamAnswer)
  | .ok => none
  | .answer a => some (.ok a)
  | .refuse e | .lost e => if Call.raises e then some (.error e) else none

/-- `except (httpx.HTTPError, BodyTooLarge)`. -/
def isUpstreamError : Exc → Bool
  | .httpError _ | .bodyTooLarge => true
  | _ => false

section

variable {C : Type} {A : C → Type} {α : Type}

/-- The coroutines of the handlers, over the commands `C` and upstream calls. -/
abbrev Task (C : Type) (A : C → Type) := Concurrent.Prog (C ⊕ Call) (Sum.elim A Call.Ans) Exc

/-- `_call_upstream`.  The deadline turns into a read timeout. -/
def callUpstream (cfg : Config) (req : Call) : Task C A UpstreamResponse :=
  Prog.except (do
      let a : UpstreamAnswer ← Prog.issue (Sum.inr req : C ⊕ Call)
      Prog.ofExcept (boundedResponse cfg a))
    fun e => if e = .timeoutError then some (.raise (.httpError .readTimeout)) else none

theorem callUpstream_issues {S : C ⊕ Call → Prop} {cfg : Config} {req : Call} (hS : S (.inr req)) :
    (callUpstream cfg req : Task C A UpstreamResponse).Issues S := by
  refine Prog.Issues.except ?_ fun e q hq => ?_
  · exact Prog.Issues.bind (Prog.Issues.issue hS) fun a => Prog.Issues.ofExcept _
  · split at hq <;> cases hq
    trivial

end

end Proxy
end AdaptiveGateway
