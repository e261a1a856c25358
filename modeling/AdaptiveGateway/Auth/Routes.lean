/-
Login, refresh and logout.

The routes share one shape: `get_db` opens a session, the handler runs, and the
session is closed whatever the outcome.  What a handler adds to its session or
changes in it reaches the database when it commits, where the flush writes the
changed rows before the added ones.
-/
import AdaptiveGateway.Auth.Database
import AdaptiveGateway.Auth.Ledger
import AdaptiveGateway.Codec.Text

namespace AdaptiveGateway
namespace Auth

open Codec Concurrent

structure Settings where
  accessTokenTtlMinutes : Nat := 15
  refreshTokenTtlDays : Nat := 7
  loginRateLimit : Nat := 5
  loginRateWindowSeconds : Nat := 60
  isProduction : Bool := false

/-- The claims of an access token.  Its `type` is always `access`. -/
structure Claims where
  sub : Text
  iat : Time
  exp : Time
  isAdmin : Bool

/-- What the routes take from libraries. -/
structure Libraries where
  /-- `hashlib.sha256(_).hexdigest()` -/
  sha256 : Bytes → Text
  /-- `pwd_context.verify` -/
  pwdVerify : Text → Text → Bool
  /-- `jwt.encode` with the secret key -/
  jwtEncode : Claims → Text

inductive Request where
  | login (email password clientIp : Text)
  | refresh (refreshToken : Text)
  | logout (refreshToken : Text)
deriving DecidableEq

structure TokenResponse where
  accessToken : Text
  refreshToken : Text
  expiresIn : Nat

inductive Reply where
  | tokens (t : TokenResponse)
  | message (text : Text)

/-- The gateway and the requests that come in, one for each thread. -/
structure Service where
  settings : Settings
  lib : Libraries
  requests : Thread → Request

abbrev Prog (α : Type) := Concurrent.Prog Cmd Ans Fault α

def await (c : Cmd) : Prog (Ans c) := Concurrent.Prog.issue c

def httpException {α : Type} (status : Nat) (detail : Text) : Prog α :=
  .raise (.http status detail [])

/-! ## Security helpers -/

section Security

variable (svc : Service)

def hashToken (raw : Text) : Hash := svc.lib.sha256 (utf8 raw)

def verifyPassword (password hashed : Text) : Bool :=
  if (utf8 password).length > 72 then false else svc.lib.pwdVerify password hashed

def generateRefreshToken : Prog (Text × Hash) := do
  let raw ← await .tokenUrlsafe
  return (raw, hashToken svc raw)

def refreshTokenExpiry : Prog Time := do
  let now ← await .now
  return now + seconds (svc.settings.refreshTokenTtlDays * 86400)

def createAccessToken (subject : Text) (isAdmin : Bool) : Prog Text := do
  let issued ← await .now
  return svc.lib.jwtEncode {
    sub := subject
    iat := issued
    exp := issued + seconds (svc.settings.accessTokenTtlMinutes * 60)
    isAdmin := isAdmin }

def accessTokenTtlSeconds : Nat := svc.settings.accessTokenTtlMinutes * 60

end Security

/-! ## Rate limit -/

/-- `check_rate_limit`, without the count of the calls that are left. -/
def checkRateLimit (svc : Service) (key : Text) (limit window : Nat) : Prog Bool :=
  Prog.except (do
      let count ← await (.incrWindow key window)
      return decide (count ≤ limit))
    fun e => if e = .exc .redisError then
        some (if svc.settings.isProduction then httpException 503 "rate limiter unavailable"
          else .ret true)
      else none

def enforceRateLimit (svc : Service) (clientIp scope : Text) (limit window : Nat) : Prog Unit := do
  let allowed ← checkRateLimit svc
    (("ratelimit:" : Text) ++ scope ++ (":" : Text) ++ clientIp) limit window
  if allowed then .ret ()
  else .raise (.http 429 "rate limit exceeded" [("Retry-After", (toString window).toList)])

/-! ## The routes -/

/-- `_issue_tokens`: the response, and the row that the session holds. -/
def issueTokens (svc : Service) (user : User) : Prog (TokenResponse × NewToken) := do
  let (rawRefresh, refreshHash) ← generateRefreshToken svc
  let expiresAt ← refreshTokenExpiry svc
  let access ← createAccessToken svc user.id user.isAdmin
  return (⟨access, rawRefresh, accessTokenTtlSeconds svc⟩, ⟨refreshHash, user.id, expiresAt⟩)

/-- `login` once the credentials are known to be right. -/
def loginUser (svc : Service) (user : User) : Prog Reply :=
  if user.isActive then do
    let (tokens, added) ← issueTokens svc user
    await (.insert added)
    await .commit
    return .tokens tokens
  else httpException 403 "account disabled"

def login (svc : Service) (email password clientIp : Text) : Prog Reply := do
  enforceRateLimit svc clientIp "login" svc.settings.loginRateLimit
    svc.settings.loginRateWindowSeconds
  let user ← await (.selectUserByEmail email)
  match user with
  | none => httpException 401 "invalid credentials"
  | some user => do
    await .runInThreadpool
    if verifyPassword svc password user.hashedPassword then loginUser svc user
    else httpException 401 "invalid credentials"

/-- `UPDATE refresh_tokens SET revoked = true WHERE ...`. -/
def revokeWhere (w : Where) : Prog Unit := do
  let hs ← await (.scan w)
  Prog.forEach (fun h => await (.revokeRow h)) hs

/-- `refresh` of a token that is revoked already. -/
def reuseDetected (stored : Row) : Prog Reply := do
  revokeWhere (.userId stored.userId)
  await .commit
  httpException 401 "refresh token reused"

/-- `refresh` of a token that has passed every check. -/
def rotate (svc : Service) (tokenHash : Hash) (user : User) : Prog Reply := do
  let (tokens, added) ← issueTokens svc user
  -- `stored.revoked = True` is flushed here, before the new row.
  await (.revokeRow tokenHash)
  await (.insert added)
  await .commit
  return .tokens tokens

/-- `refresh` of a token that is not revoked. -/
def refreshUnrevoked (svc : Service) (tokenHash : Hash) (stored : Row) : Prog Reply := do
  let now ← await .now
  if stored.expiresAt < now then httpException 401 "refresh token expired"
  else do
    let user ← await (.selectUser stored.userId)
    match user with
    | none => httpException 401 "invalid refresh token"
    | some user =>
      if user.isActive then rotate svc tokenHash user
      else httpException 401 "invalid refresh token"

def refresh (svc : Service) (refreshToken : Text) : Prog Reply := do
  let tokenHash := hashToken svc refreshToken
  let stored ← await (.selectForUpdate tokenHash)
  match stored with
  | none => httpException 401 "invalid refresh token"
  | some stored =>
    if stored.revoked then reuseDetected stored else refreshUnrevoked svc tokenHash stored

def logout (svc : Service) (refreshToken : Text) : Prog Reply := do
  revokeWhere (.tokenHash (hashToken svc refreshToken))
  await .commit
  return .message "logged out"

def handler (svc : Service) : Request → Prog Reply
  | .login email password clientIp => login svc email password clientIp
  | .refresh refreshToken => refresh svc refreshToken
  | .logout refreshToken => logout svc refreshToken

/-- A request from the moment its session is opened to the moment it is closed. -/
def serve (svc : Service) (r : Request) : Prog Reply := do
  await .openSession
  Prog.finally_ (handler svc r) (await .closeSession)

def gateway (svc : Service) : Machine Thread Cmd Ans Fault Reply World Choice Event where
  exec := exec
  env e s := some (e.apply s)
  drop i s := s.close i
  boot i := serve svc (svc.requests i)
  again _ _ := none

/-! ## The ledger behind the table -/

/-- The token that the thread's call asks to exchange. -/
def presented (svc : Service) (i : Thread) : Option Hash :=
  match svc.requests i with
  | .refresh refreshToken => some (hashToken svc refreshToken)
  | _ => none

def Row.token (svc : Service) (r : Row) : Token Hash UserId where
  user := r.userId
  parent := presented svc r.issuer
  live := r.revoked = false

/-- The committed rows, read as a ledger.  A row that a refresh has inserted stands
for a token given in exchange for the one presented. -/
def World.ledger (svc : Service) (s : World) : Ledger Hash UserId :=
  fun h => (s.tokens.get? h).map (Row.token svc)

end Auth
end AdaptiveGateway
