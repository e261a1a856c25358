/-
Proxied reads and the shared response cache.

`_handle_get` serves a stored response if it is fresh, serves it and starts a
background refresh if it is stale, and goes to the upstream otherwise.  The
handlers and the refresh tasks share the Redis cache and the revalidation locks.

The hash function, the JSON form of a stored response and what the HTTP client does with
cookies belong to libraries and are parameters.  A background task is a thread of its own,
which waits until the handler of the same number has started it.

`exchanges` is history: the upstream requests that were answered, with the
handler they were made for and the cookies that the client added, latest first.
-/
import AdaptiveGateway.Codec.Base64
import AdaptiveGateway.Codec.Json
import AdaptiveGateway.Concurrent.Pool
import AdaptiveGateway.Proxy.Message
import Mathlib.Data.List.Sort

namespace AdaptiveGateway
namespace Proxy
namespace Cache

open Codec Concurrent

/-! ## Eligibility -/

/-- The headers that tie a read to a caller or to a part of the resource. -/
def privateHeaders : List Text :=
  ["authorization", "x-api-key", "cookie", "range", "if-range", "if-match", "if-none-match",
    "if-modified-since", "if-unmodified-since"]

/-- `_cache_allowed`. -/
def cacheAllowed (r : Request) : Bool :=
  !(privateHeaders.any fun name => (r.header name).isSome) &&
    !([("no-cache" : Text), "no-store", "max-age=0"].any fun value =>
      hasSubstring value (lower ((r.header "cache-control").getD [])))

/-- The headers with which an upstream decides about caching itself. -/
def directiveHeaders : List Text := ["set-cookie", "cache-control", "vary", "expires"]

/-- `_response_cacheable`. -/
def responseCacheable (resp : UpstreamResponse) : Bool :=
  resp.status == 200 && !(directiveHeaders.any fun name => (resp.headers.get? name).isSome)

/-! ## Stored responses -/

structure CachedResponse where
  status : Nat
  headers : Dict Text Text
  bodyB64 : Text
  mediaType : Option Text
  storedAt : Time
  freshFor : Nat
deriving DecidableEq

namespace CachedResponse

/-- `CachedResponse.build`, for a response at a time. -/
def build (resp : UpstreamResponse) (freshFor : Nat) (now : Time) : CachedResponse where
  status := resp.status
  headers := responseHeaders resp
  bodyB64 := Base64.b64encode resp.content
  mediaType := resp.headers.get? "content-type"
  storedAt := now
  freshFor := freshFor

def body (e : CachedResponse) : Except Exc Bytes :=
  match Base64.b64decode e.bodyB64 with
  | some b => .ok b
  | none => .error .valueError

/-- `is_stale`. -/
def isStale (e : CachedResponse) (now : Time) : Bool :=
  decide (e.storedAt + seconds e.freshFor ≤ now)

/-- `f"{entry.age_seconds:.0f}"`: whole seconds, with halves to the even side. -/
def ageText (e : CachedResponse) (now : Time) : Text :=
  let d : Nat := if e.storedAt ≤ now then now - e.storedAt else e.storedAt - now
  let n := (d + 500000) / 1000000
  let n := if d % 1000000 = 500000 ∧ n % 2 = 1 then n - 1 else n
  (if e.storedAt ≤ now then [] else ['-']) ++ (toString n).toList

end CachedResponse

/-- What the cache takes from libraries. -/
structure Libraries where
  /-- `hashlib.sha256(_).hexdigest()` -/
  sha256 : Bytes → Text
  modelDumpJson : CachedResponse → Text
  /-- `none` where it raises a `ValidationError`. -/
  modelValidateJson : Text → Option CachedResponse
  cookies : CookiePolicy

/-! ## Keys -/

/-- `p <= q` for pairs of strings. -/
def pairLe (p q : Text × Text) : Bool := if p.1 = q.1 then textLe p.2 q.2 else textLe p.1 q.1

/-- The header map with its names folded to lower case. -/
def folded (headers : Dict Text Text) : List (Text × Text) :=
  headers.items.map fun e => (lower e.1, e.2)

def pairJson (p : Text × Text) : Json := .arr [.str p.1, .str p.2]

/-- `json.dumps(sorted((k.lower(), v) for k, v in headers.items()))`. -/
def variant (headers : Dict Text Text) : Text :=
  (Json.arr (((folded headers).insertionSort fun p q => pairLe p q = true).map pairJson)).dumps

def buildCacheKey (lib : Libraries) (method path queryString variant : Text) : Text :=
  let digest := lib.sha256 (utf8 (upper method ++ '\x00' :: path ++ '\x00' :: queryString ++
    '\x00' :: variant))
  ("cache:v2:" : Text) ++ digest

/-- `_cache_key`. -/
def cacheKey (lib : Libraries) (target : Text) (headers : Dict Text Text) : Text :=
  buildCacheKey lib "GET" target [] (variant headers)

/-! ## Commands -/

/-- The handler of a read, or the background task it has started. -/
inductive Thread where
  | handler (n : Nat)
  | refresh (n : Nat)
deriving DecidableEq, Repr

/-- The number of the read that a thread works for. -/
def Thread.read : Thread → Nat
  | handler n | refresh n => n

/-- A lock token; two draws differ by their serial number. -/
structure Token where
  serial : Nat
deriving DecidableEq, Repr

/-- The arguments of `_refresh_cache`. -/
structure RefreshJob where
  key : Text
  url : Text
  headers : Dict Text Text
  freshFor : Nat
  lockToken : Token

inductive Cmd where
  | time
  | tokenHex
  | get (key : Text)
  | set (key value : Text) (ttl : Nat)
  | setNx (name : Text) (token : Token) (ttl : Nat)
  | getDel (name : Text) (token : Token)
  | spawn (job : RefreshJob)
  | job

abbrev Ans : Cmd → Type
  | .time => Time
  | .tokenHex => Token
  | .get _ => Option Text
  | .setNx _ _ _ => Bool
  | .job => RefreshJob
  | _ => Unit

def Cmd.raises : Cmd → Exc → Bool
  | .time, _ | .tokenHex, _ | .spawn _, _ | .job, _ => false
  | _, e => e == .redisError || e == .cancelled

abbrev ReadTask := Task Cmd Ans

def await (c : Cmd) : ReadTask (Ans c) := Prog.issue (Sum.inl c : Cmd ⊕ Call)

def catchRedis {α : Type} (p : ReadTask α) (a : α) : ReadTask α :=
  Prog.except p fun e => if e = .redisError then some (.ret a) else none

/-! ## `cache_get`, `cache_set` and the locks -/

inductive CacheStatus where
  | hit | miss | stale
deriving DecidableEq, Repr

def CacheStatus.value : CacheStatus → Text
  | hit => "HIT"
  | miss => "MISS"
  | stale => "STALE"

def cacheGet (lib : Libraries) (key : Text) : ReadTask (CacheStatus × Option CachedResponse) := do
  match ← catchRedis (await (.get key)) none with
  | none => return (.miss, none)
  | some raw =>
    match lib.modelValidateJson raw with
    | none => return (.miss, none)
    | some entry =>
      match entry.body with
      | .error _ => return (.miss, none)
      | .ok _ => do
        let now ← await .time
        return (if entry.isStale now then .stale else .hit, some entry)

def STALE_GRACE_SECONDS : Nat := 86400

def cacheSet (lib : Libraries) (key : Text) (entry : CachedResponse) : ReadTask Unit :=
  let physicalTtl := entry.freshFor + STALE_GRACE_SECONDS
  catchRedis (await (.set key (lib.modelDumpJson entry) (max physicalTtl 1))) ()

/-- `acquire_lock`. -/
def acquireLock (name : Text) (ttl : Nat) : ReadTask (Option Token) := do
  let token ← await .tokenHex
  catchRedis (do
      let acquired ← await (.setNx name token ttl)
      return if acquired then some token else none)
    none

/-- `release_lock`. -/
def releaseLock (name : Text) (token : Token) : ReadTask Unit :=
  catchRedis (await (.getDel name token)) ()

def lockName (key : Text) : Text := ("revalidate:" : Text) ++ key

/-- `if fit: await cache_set(key, CachedResponse.build(...))`. -/
def storeIf (fit : Bool) (lib : Libraries) (key : Text) (freshFor : Nat)
    (resp : UpstreamResponse) : ReadTask Unit :=
  if fit then do
    let now ← await .time
    cacheSet lib key (.build resp freshFor now)
  else return ()

/-! ## `_refresh_cache` and `_handle_get` -/

def refreshCache (cfg : Config) (lib : Libraries) (job : RefreshJob) : ReadTask Unit :=
  Prog.finally_
    (Prog.except (do
        let resp ← callUpstream cfg ⟨"GET", job.url, job.headers, []⟩
        storeIf (responseCacheable resp) lib job.key job.freshFor resp)
      fun e => if isUpstreamError e then some (.ret ()) else none)
    (releaseLock (lockName job.key) job.lockToken)

/-- The arguments of `_handle_get`. -/
structure GetCall where
  request : Request
  target : Text
  rule : RouteRule
  fwdHeaders : Dict Text Text

namespace GetCall

def call (g : GetCall) : Call := ⟨"GET", g.target, g.fwdHeaders, []⟩

def key (lib : Libraries) (g : GetCall) : Text := cacheKey lib g.target g.fwdHeaders

def cacheable (g : GetCall) : Bool := g.rule.cacheable && cacheAllowed g.request

/-- `rule.upstream_timeout or settings.upstream_timeout_seconds`. -/
def timeout (cfg : Config) (g : GetCall) : Time :=
  (g.rule.upstreamTimeout.filter (· ≠ 0)).getD cfg.settings.upstreamTimeout

end GetCall

/-- `_from_cache`. -/
def fromCache (entry : CachedResponse) (status : CacheStatus) (now : Time) : Except Exc Response :=
  let headers := (entry.headers.set "X-Cache-Status" status.value).set "X-Cache-Age"
    (entry.ageText now)
  match entry.body with
  | .ok body => Response.make body entry.status headers entry.mediaType
  | .error e => .error e

/-- The read of a stored response. -/
def serve (entry : CachedResponse) (status : CacheStatus) : ReadTask (Response × CacheStatus) := do
  let now ← await .time
  let response ← Prog.ofExcept (fromCache entry status now)
  return (response, status)

/-- The refresh of a stale entry is left to the one task that gets the lock. -/
def revalidate (cfg : Config) (lib : Libraries) (g : GetCall) : ReadTask Unit := do
  let ttl := max cfg.settings.revalidateLockTtlSeconds (g.timeout cfg / 1000000 + 5)
  match ← acquireLock (lockName (g.key lib)) ttl with
  | some token =>
    await (.spawn ⟨g.key lib, g.target, g.fwdHeaders, g.rule.cacheTtl, token⟩)
  | none => return ()

/-- `_handle_get` on a miss. -/
def fetch (cfg : Config) (lib : Libraries) (g : GetCall) : ReadTask (Response × CacheStatus) := do
  let fetched ← Prog.except (do
      let resp ← callUpstream cfg g.call
      return some resp)
    fun e => if isUpstreamError e then some (.ret none) else none
  match fetched with
  | none => do
    let response ← Prog.ofExcept (detail "upstream unavailable" 503 Dict.empty)
    return (response, .miss)
  | some resp => do
    storeIf (g.cacheable && responseCacheable resp) lib (g.key lib) g.rule.cacheTtl resp
    let response ← Prog.ofExcept (fromUpstream resp (if g.cacheable then "MISS" else "BYPASS"))
    return (response, .miss)

/-- `await cache_get(cache_key) if cacheable else (CacheStatus.MISS, None)`. -/
def lookup (lib : Libraries) (g : GetCall) : ReadTask (CacheStatus × Option CachedResponse) :=
  if g.cacheable then cacheGet lib (g.key lib) else return (.miss, none)

/-- `_handle_get`, with the cache status that it logs. -/
def handleGet (cfg : Config) (lib : Libraries) (g : GetCall) :
    ReadTask (Response × CacheStatus) := do
  match ← lookup lib g with
  | (.hit, some entry) => serve entry .hit
  | (.stale, some entry) => do
    revalidate cfg lib g
    serve entry .stale
  | _ => fetch cfg lib g

/-! ## Reads and refreshes side by side -/

structure Stored where
  value : Text
  expires : Time

structure Lock where
  token : Token
  expires : Time
deriving DecidableEq, Repr

structure Exchange where
  read : Nat
  call : Call
  /-- The `Cookie` header that the client has added. -/
  cookie : Option Text
  answer : UpstreamAnswer

structure World where
  now : Time := 0
  cache : Text → Option Stored := fun _ => none
  locks : Text → Option Lock := fun _ => none
  nextSerial : Nat := 0
  jobs : Nat → Option RefreshJob := fun _ => none
  jar : Jar := []
  exchanges : List Exchange := []

/-- The effect of a command that its store executes. -/
def perform (i : Thread) (s : World) : (c : Cmd) → Option (Ans c × World)
  | .time => some (s.now, s)
  | .tokenHex => some (⟨s.nextSerial⟩, { s with nextSerial := s.nextSerial + 1 })
  | .get key => some ((s.cache key).map Stored.value, s)
  | .set key value ttl =>
    some ((), { s with cache := Function.update s.cache key (some ⟨value, s.now + seconds ttl⟩) })
  | .setNx name token ttl =>
    match s.locks name with
    | some _ => some (false, s)
    | none => some (true,
        { s with locks := Function.update s.locks name (some ⟨token, s.now + seconds ttl⟩) })
  | .getDel name token =>
    if (s.locks name).map Lock.token = some token then
      some ((), { s with locks := Function.update s.locks name none })
    else some ((), s)
  | .spawn job => some ((), { s with jobs := Function.update s.jobs i.read (some job) })
  | .job => (s.jobs i.read).map fun job => (job, s)

def exec (lib : Libraries) (i : Thread) : (c : Cmd ⊕ Call) → Choice → World →
    Option (Except Exc (Sum.elim Ans Call.Ans c) × World)
  | .inl c, .ok, s | .inl c, .answer _, s => (perform i s c).map fun o => (.ok o.1, o.2)
  | .inl c, .refuse e, s => if c.raises e then some (.error e, s) else none
  | .inl c, .lost e, s =>
    if c.raises e then (perform i s c).map fun o => (.error e, o.2) else none
  | .inr req, ch, s => (Call.outcome ch).map fun r => (r, match r with
      | .ok a => { s with
          jar := lib.cookies.extract s.jar req.url a
          exchanges := ⟨i.read, req, lib.cookies.added s.jar req, a⟩ :: s.exchanges }
      | .error _ => s)

/-- A command is executed, and perhaps its answer is lost, or it fails. -/
theorem exec_inl {lib : Libraries} {i : Thread} {s s' : World} {ch : Choice} {c : Cmd}
    {r : Except Exc (Ans c)} (h : exec lib i (.inl c) ch s = some (r, s')) :
    (∃ a, perform i s c = some (a, s') ∧ (r = .ok a ∨ ∃ e, c.raises e = true ∧ r = .error e)) ∨
      (s' = s ∧ ∃ e, c.raises e = true ∧ r = .error e) := by
  cases ch with
  | ok | answer =>
    obtain ⟨⟨a, s₁⟩, hp, heq⟩ := Option.map_eq_some_iff.mp h
    cases heq
    exact Or.inl ⟨a, hp, Or.inl rfl⟩
  | refuse e =>
    simp only [exec] at h
    split at h
    next he =>
      cases h
      exact Or.inr ⟨rfl, e, he, rfl⟩
    next => cases h
  | lost e =>
    simp only [exec] at h
    split at h
    next he =>
      obtain ⟨⟨a, s₁⟩, hp, heq⟩ := Option.map_eq_some_iff.mp h
      cases heq
      exact Or.inl ⟨a, hp, Or.inr ⟨e, he, rfl⟩⟩
    next => cases h

/-- What happens to the stores and to the jar by themselves. -/
inductive Happening where
  | advance (d : Time)
  | evict (key : Text)
  /-- The jar is another one, or the next request was built when it was.  Cookies expire, and
  answers to writes and answers that are cut off bring cookies too. -/
  | cookies (jar : Jar)

def happen : Happening → World → World
  | .advance d, s =>
    { s with
      now := s.now + d
      cache := fun k => (s.cache k).filter fun v => decide (s.now + d < v.expires)
      locks := fun n => (s.locks n).filter fun l => decide (s.now + d < l.expires) }
  | .evict key, s => { s with cache := Function.update s.cache key none }
  | .cookies jar, s => { s with jar := jar }

abbrev Outcome := Option (Response × CacheStatus)

def boot (cfg : Config) (lib : Libraries) (gets : Nat → GetCall) : Thread → ReadTask Outcome
  | .handler n => do
    let answer ← handleGet cfg lib (gets n)
    return some answer
  | .refresh _ => do
    let job ← await .job
    refreshCache cfg lib job
    return none

def machine (cfg : Config) (lib : Libraries) (gets : Nat → GetCall) :
    Machine Thread (Cmd ⊕ Call) (Sum.elim Ans Call.Ans) Exc Outcome World Choice Happening where
  exec := exec lib
  env e s := some (happen e s)
  drop _ s := s
  boot := boot cfg lib gets
  again _ _ := none

end Cache
end Proxy
end AdaptiveGateway
