/-
HTTP forwarding boundaries shared by the proxy and the queued replay.

An upstream response enters as httpx reports it: `items()` of its headers, with
lower-cased names and the lines of a repeated name joined, the separate
`Set-Cookie` lines, and the decoded body.  `Choice` says how a command of a
gateway task comes out, whether it goes to a store or to an upstream.
-/
import AdaptiveGateway.Config
import AdaptiveGateway.Exc
import AdaptiveGateway.Codec.Url

namespace AdaptiveGateway

open Codec

def HOP_BY_HOP : List Text :=
  ["connection", "keep-alive", "proxy-authenticate", "proxy-authorization", "te", "trailer",
    "trailers", "transfer-encoding", "upgrade", "host", "content-length"]

def REPRESENTATION_HEADERS : List Text :=
  ["etag", "last-modified", "content-md5", "digest", "content-digest", "repr-digest",
    "content-range", "accept-ranges"]

/-- `clean_headers`, on what `headers.get("connection", "")` and `headers.items()`
return. -/
def cleanHeaders (connection : Text) (items : List (Text × Text)) : Dict Text Text :=
  let nominated := (splitOn ',' connection).map fun part => lower (strip part)
  Dict.ofPairs (items.filter fun e => !(HOP_BY_HOP ++ nominated).contains (lower e.1))

/-- An upstream request as the HTTP client is asked to send it. -/
structure HttpRequest (η : Type) where
  method : Text
  url : Text
  headers : η
  content : Bytes

/-- What the upstream answered, as httpx reports it. -/
structure UpstreamAnswer where
  status : Nat
  headers : Dict Text Text
  setCookie : List Text
  body : Bytes
deriving DecidableEq

/-- How the surroundings resolve a command. -/
inductive Choice where
  | ok
  | answer (a : UpstreamAnswer)
  /-- Raised without effect. -/
  | refuse (e : Exc)
  /-- Executed, and raised all the same. -/
  | lost (e : Exc)

/-- The bounded copy of an upstream response. -/
structure UpstreamResponse where
  status : Nat
  headers : Dict Text Text
  content : Bytes
  setCookie : List Text
deriving DecidableEq

/-- httpx takes a header map only if its names and values are ASCII. -/
def isAsciiMap (headers : Dict Text Text) : Bool :=
  headers.items.all fun e => Url.isAscii e.1 && Url.isAscii e.2

/-- The headers that `bounded_request` copies.  httpx has decoded the body, so the
validators of an encoded one no longer describe it. -/
def boundedHeaders (a : UpstreamAnswer) : Dict Text Text :=
  let headers := cleanHeaders ((a.headers.get? "connection").getD []) a.headers.items
  if ((a.headers.get? "content-encoding").getD []).isEmpty then headers
  else headers.filter fun e =>
    !(REPRESENTATION_HEADERS ++ [("content-encoding" : Text)]).contains (lower e.1)

/-- `bounded_request` after the answer has arrived.  httpx refuses to build a response
with headers that are not ASCII, and itself adds `Content-Length` to one that has a
body. -/
def boundedResponse (cfg : Config) (a : UpstreamAnswer) : Except Exc UpstreamResponse :=
  if a.body.length > cfg.settings.maxResponseBodyBytes then .error .bodyTooLarge
  else if isAsciiMap (boundedHeaders a) then
    let headers :=
      if a.body.isEmpty then boundedHeaders a
      else (boundedHeaders a).set "content-length" (toString a.body.length).toList
    .ok ⟨a.status, headers, a.body, a.setCookie⟩
  else .error .unicodeError

theorem boundedResponse_error {cfg : Config} {a : UpstreamAnswer} {e : Exc}
    (h : boundedResponse cfg a = .error e) : e = .bodyTooLarge ∨ e = .unicodeError := by
  unfold boundedResponse at h
  split at h
  · exact Or.inl (Except.error.inj h).symm
  · split at h
    · cases h
    · exact Or.inr (Except.error.inj h).symm

/-! ## Destinations -/

/-- `text.rstrip("/")`. -/
def rstripSlash (t : Text) : Text := (t.reverse.dropWhile (· == '/')).reverse

def findService (cfg : Config) (parsed : Url.Split) : List (Text × Text) → Option (Option Text)
  | [] => some none
  | (service, base) :: rest =>
    match Url.urlsplit cfg.netlocOk base with
    | none => none
    | some approved =>
      let pre := rstripSlash approved.path ++ ['/']
      if (parsed.scheme, parsed.netloc) = (approved.scheme, approved.netloc) ∧
          pre.isPrefixOf parsed.path then
        some (some service)
      else findService cfg parsed rest

/-- `destination_service`; the outer `none` is the `ValueError` of `urlsplit`. -/
def destinationService (cfg : Config) (url : Text) : Option (Option Text) :=
  match Url.urlsplit cfg.netlocOk url with
  | none => none
  | some parsed => findService cfg parsed cfg.settings.upstreamServices.items

/-- `validate_upstream_url` does not raise. -/
def validateUpstreamUrl (cfg : Config) (base : Text) : Bool :=
  match Url.urlsplit cfg.netlocOk base with
  | none => false
  | some parsed =>
    let host := Url.hostPort parsed.netloc
    !(!(["http", "https"] : List Text).contains parsed.scheme || host.1.isEmpty ||
      parsed.netloc.contains '@' || !parsed.query.isEmpty || !parsed.fragment.isEmpty ||
      base.contains '\\') && Url.portOk host.2

/-- `build_target`; `none` where it raises `ValueError`. -/
def buildTarget (cfg : Config) (base path query : Text) : Option Text :=
  if !validateUpstreamUrl cfg base then none
  else if path.contains '\\' || (splitOn '/' path).any fun part =>
      [("." : Text), ".."].contains part then none
  else
    let target := rstripSlash base ++ '/' :: Url.quote "/-._~:@!$&'()*+,;=" path
    some (target ++ if query.isEmpty then [] else '?' :: query)

/-- What the discovery asks of the network and of `ipaddress`. -/
structure Resolver where
  /-- The addresses of a host; `none` for a timeout or an error. -/
  getaddrinfo : Text → Option (List Text)
  /-- `ipaddress.ip_address(_).is_global`; `none` for `ValueError`. -/
  isGlobal : Text → Option Bool

/-- `re.fullmatch(r"[A-Za-z0-9](?:[A-Za-z0-9.-]{0,251}[A-Za-z0-9])?", service)`. -/
def isDiscoveryHostname (service : Text) : Bool :=
  let isAlnum := fun c => isAsciiAlpha c || isAsciiDigit c
  !service.isEmpty && decide (service.length ≤ 253) && (service.take 1).all isAlnum &&
    (service.reverse.take 1).all isAlnum &&
    service.all fun c => isAlnum c || c == '.' || c == '-'

/-- `s <= t` for strings, as `sorted` compares them. -/
def textLe : Text → Text → Bool
  | [], _ => true
  | _ :: _, [] => false
  | a :: s, b :: t => if a = b then textLe s t else decide (a.toNat < b.toNat)

/-- `discover_upstream`: the base and the host; `none` for the exceptions that the
proxy catches. -/
def discoverUpstream (cfg : Config) (net : Resolver) (service : Text) : Option (Text × Text) :=
  let host := lower service
  if !isDiscoveryHostname service then none
  else if !cfg.settings.allowUnlistedUpstreams ||
      !cfg.settings.upstreamDiscoveryDomains.any fun domain =>
        ('.' :: (lower domain).dropWhile (· == '.')).isSuffixOf host then none
  else
    match net.getaddrinfo host with
    | none | some [] => none
    | some (ip :: ips) =>
      if (ip :: ips).all fun value => net.isGlobal value == some true then
        let address := ips.foldl (fun a b => if textLe a b then a else b) ip
        let authority := if address.contains ':' then '[' :: address ++ [']'] else address
        some (("http://" : Text) ++ authority, host)
      else none

end AdaptiveGateway
