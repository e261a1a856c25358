/-
Who may run an administrative handler.

The middleware only attaches an identity to the request, from a Bearer token or from an
API key, and lets a request without credentials pass.  The router of the administrative
endpoints asks for an authenticated administrator, whatever the middleware did.

The database is read by commands, and others may change it between two of them.  The
library that decodes tokens and the one that reads UUIDs are parameters.
-/
import AdaptiveGateway.Auth.Database
import AdaptiveGateway.Concurrent.Prog
import AdaptiveGateway.Python.Value

namespace AdaptiveGateway
namespace Auth.Admin

open Codec Concurrent Python

/-! ## Requests -/

structure Request where
  /-- `request.url.path`.  It is put together from the `Host` header as well, so it
  need not be the path that the router goes by. -/
  path : Text
  /-- `request.headers.items()`: names in lower case, repeated names kept. -/
  headers : List (Text × Text)

/-- `request.headers.get(name)`. -/
def Request.header (r : Request) (name : Text) : Option Text := Dict.lookup name r.headers

/-- What the middleware attaches to `request.state`. -/
structure State where
  authenticated : Bool := false
  userId : Option Text := none
  isAdmin : Bool := false
  authType : Option Text := none

structure Response where
  status : Nat
  detail : Text
  headers : List (Text × Text) := []

inductive Fault where
  /-- `HTTPException` -/
  | http (status : Nat) (detail : Text) (headers : List (Text × Text))
  | sqlAlchemyError
  /-- An exception that nothing here catches. -/
  | other

/-! ## The database -/

structure ApiKey where
  id : Text
  keyHash : Hash
  userId : Option UserId
  isActive : Bool := true

structure Accounts where
  users : List User
  apiKeys : List ApiKey

inductive Cmd where
  /-- `session.get(User, id)` -/
  | getUser (id : UserId)
  /-- The active `APIKey` of this hash, `scalar_one_or_none()`. -/
  | selectApiKey (h : Hash)
  | closeSession
  /-- The parameters and the body of the request are read and checked. -/
  | params
  /-- The function of the endpoint. -/
  | handler (principal : Option Text)

abbrev Ans : Cmd → Type
  | .getUser _ => Option User
  | .selectApiKey _ => Option ApiKey
  | .handler _ => Response
  | _ => Unit

abbrev Prog (α : Type) := Concurrent.Prog Cmd Ans Fault α

/-- What the database answers to a command that does not fail. -/
def Accounts.Answers (db : Accounts) : (c : Cmd) → Ans c → Prop
  | .getUser id, user => user = db.users.find? fun u => decide (u.id = id)
  | .selectApiKey h, key =>
    (db.apiKeys.filter fun k => decide (k.keyHash = h) && k.isActive) = key.toList
  | _, _ => True

def await (c : Cmd) : Prog (Ans c) := Concurrent.Prog.issue c

/-! ## Tokens -/

/-- The claims of a token. -/
abbrev Payload := List (Str × Value)

inductive JwtFault where
  /-- `PyJWTError` -/
  | jwtError
  | other

structure Libraries where
  /-- `hashlib.sha256(_).hexdigest()` -/
  sha256 : Bytes → Text
  /-- `jwt.decode` with the secret key. -/
  jwtDecode : Text → Except JwtFault Payload
  /-- `uuid.UUID` of a string, written out; `none` for `ValueError`. -/
  uuid : Str → Option UserId

section

variable (lib : Libraries)

/-- `decode_access_token`. -/
def decodeAccessToken (token : Text) : Except JwtFault Payload :=
  match lib.jwtDecode token with
  | .error e => .error e
  | .ok payload =>
    if Dict.lookup ("type" : Str) payload ≠ some (Value.str "access") ||
        !((Dict.lookup ("sub" : Str) payload).map Value.truthy).getD false then .error .jwtError
    else .ok payload

/-- `uuid.UUID(payload["sub"])`, `none` for the exceptions that are caught.  What is no
string has no `replace`. -/
def subject (payload : Payload) : Except Fault (Option UserId) :=
  match Dict.lookup ("sub" : Str) payload with
  | none | some .null => .ok none
  | some (.str s) => .ok (lib.uuid s)
  | some _ => .error .other

/-- `hash_token`. -/
def hashToken (raw : Text) : Hash := lib.sha256 (utf8 raw)

end

/-! ## The middleware -/

/-- `_PUBLIC_PREFIXES`. -/
def PUBLIC_PREFIXES : List Text :=
  ["/health", "/metrics", "/docs", "/redoc", "/openapi.json", "/auth", "/favicon.ico"]

/-- `_is_public`. -/
def isPublic (path : Text) : Bool :=
  path == "/" || PUBLIC_PREFIXES.any fun front =>
    path == front || (front ++ ['/']).isPrefixOf path

/-- `_unauthorized`. -/
def unauthorized (detail : Text) : Response := ⟨401, detail, [("WWW-Authenticate", "Bearer")]⟩

def unavailable : Response := ⟨503, "authentication unavailable", []⟩

/-- The token of an `Authorization` header with the Bearer scheme. -/
def bearerToken (r : Request) : Option Text :=
  match r.header "authorization" with
  | some h => if ("bearer " : Text).isPrefixOf (lower h) then some (strip (h.drop 7)) else none
  | none => none

/-- `except SQLAlchemyError`. -/
def databaseError : Fault → Option (Prog (Except Response State))
  | .sqlAlchemyError => some (.ret (.error unavailable))
  | _ => none

/-- `async with AsyncSessionLocal()` with its handler around it. -/
def inSession {α : Type} (body : Prog α) (f : α → Except Response State) :
    Prog (Except Response State) :=
  Concurrent.Prog.except
    (Concurrent.Prog.bind (Concurrent.Prog.finally_ body (await .closeSession)) fun a => .ret (f a))
    databaseError

section

variable (lib : Libraries)

/-- The answer to an account that a token names. -/
def jwtState : Option User → Except Response State
  | some user =>
    if user.isActive then
      .ok { authenticated := true, userId := some user.id, isAdmin := user.isAdmin,
            authType := some "jwt" }
    else .error (unauthorized "invalid or disabled account")
  | none => .error (unauthorized "invalid or disabled account")

/-- A request with a Bearer token. -/
def withToken (token : Text) : Prog (Except Response State) :=
  match decodeAccessToken lib token with
  | .error .jwtError => .ret (.error (unauthorized "invalid or expired token"))
  | .error .other => .raise .other
  | .ok payload =>
    match subject lib payload with
    | .error e => .raise e
    | .ok none => .ret (.error (unauthorized "invalid token subject"))
    | .ok (some userId) => inSession (await (.getUser userId)) jwtState

/-- `_verify_api_key`, inside its session. -/
def verifyApiKey (rawKey : Text) : Prog (Option Text) := do
  let apiKey ← await (.selectApiKey (hashToken lib rawKey))
  match apiKey with
  | none => return none
  | some key =>
    match key.userId with
    | none => return some key.id
    | some userId => do
      let user ← await (.getUser userId)
      match user with
      | some u => return if u.isActive then some userId else none
      | none => return none

def apiKeyState : Option Text → Except Response State
  | some principal =>
    .ok { authenticated := true, userId := some principal, authType := some "api_key" }
  | none => .error (unauthorized "invalid API key")

/-- `AuthMiddleware.dispatch` up to `call_next`: an answer, or what `request.state`
holds. -/
def identify (r : Request) : Prog (Except Response State) :=
  if isPublic r.path then .ret (.ok {})
  else match bearerToken r with
    | some token => withToken lib token
    | none =>
      let apiKey := (r.header "x-api-key").getD []
      if apiKey ≠ [] then inSession (verifyApiKey lib apiKey) apiKeyState
      else if (r.header "authorization").getD [] ≠ [] then
        .ret (.error (unauthorized "unsupported authorization scheme"))
      else .ret (.ok {})

end

/-! ## The administrative routes -/

/-- `require_principal`. -/
def requirePrincipal (st : State) : Except Fault (Option Text) :=
  if st.authenticated then .ok st.userId
  else .error (.http 401 "authentication required" [("WWW-Authenticate", "Bearer")])

/-- `require_admin`. -/
def requireAdmin (st : State) : Except Fault (Option Text) :=
  match requirePrincipal st with
  | .error e => .error e
  | .ok principal =>
    if st.isAdmin then .ok principal else .error (.http 403 "admin privileges required" [])

/-- An endpoint of the router: its dependency, its parameters, its function. -/
def endpoint (st : State) : Prog Response := do
  let principal ← Concurrent.Prog.ofExcept (requireAdmin st)
  let _ ← await .params
  await (.handler principal)

/-- `call_next`, where the application answers an `HTTPException`. -/
def callNext (st : State) : Prog Response :=
  Concurrent.Prog.except (endpoint st) fun
    | .http status detail headers => some (.ret ⟨status, detail, headers⟩)
    | _ => none

/-- A request that is routed to an administrative endpoint. -/
def serve (lib : Libraries) (r : Request) : Prog Response := do
  match (← identify lib r) with
  | .error response => return response
  | .ok st => callNext st

/-! ## Runs -/

abbrev Conversation := List (Concurrent.Prog.Exchange Cmd Ans Fault)

/-- The answers are read from a database that is `db h` after the conversation `h`. -/
def Reads (ρ : Concurrent.Prog.Oracle Cmd Ans Fault) (db : Conversation → Accounts) : Prop :=
  ∀ h c a, ρ h c = .ok a → (db h).Answers c a

section

variable {ρ : Concurrent.Prog.Oracle Cmd Ans Fault} {h : Conversation} {st : State}

theorem play_databaseError (e : Fault) :
    (((databaseError e).getD (.raise e)).play ρ h).2 ≠ .ok (.ok st) := by
  cases e <;> simp [databaseError]

/-- Leaving a session hands on what was found in it. -/
theorem play_inSession {α : Type} {body : Prog α} {f : α → Except Response State}
    (hplay : ((inSession body f).play ρ h).2 = .ok (.ok st)) :
    (body.play ρ h).1 <+: ((inSession body f).play ρ h).1 ∧
      ∃ a, (body.play ρ h).2 = .ok a ∧ f a = .ok st := by
  unfold inSession at hplay ⊢
  rw [Concurrent.Prog.play_except, Concurrent.Prog.play_bind, Concurrent.Prog.play_finally] at hplay ⊢
  cases hclose : ((await .closeSession).play ρ (h ++ (body.play ρ h).1)).2 with
  | error e =>
    rw [hclose] at hplay
    exact absurd hplay (play_databaseError e)
  | ok u =>
    rw [hclose] at hplay
    cases hbody : (body.play ρ h).2 with
    | error e =>
      rw [hbody] at hplay
      exact absurd hplay (play_databaseError e)
    | ok a =>
      rw [hbody] at hplay
      refine ⟨?_, a, rfl, ?_⟩
      · simp
      · exact Except.ok.inj hplay

theorem apiKeyState_isAdmin {principal : Option Text} (hstate : apiKeyState principal = .ok st) :
    st.isAdmin = false := by
  cases principal with
  | none => cases hstate
  | some id =>
    cases hstate
    rfl

theorem jwtState_ok {found : Option User} (hstate : jwtState found = .ok st) :
    ∃ user, found = some user ∧ user.isActive = true ∧ st.isAdmin = user.isAdmin ∧
      st.userId = some user.id := by
  cases found with
  | none => cases hstate
  | some user =>
    rw [jwtState] at hstate
    split at hstate
    next hactive =>
      cases hstate
      exact ⟨user, rfl, hactive, rfl, rfl⟩
    next => cases hstate

variable {lib : Libraries} {r : Request}

/-- The state of a request with a token is that of the account which the token names. -/
theorem withToken_ok {token : Text} (hplay : ((withToken lib token).play ρ h).2 = .ok (.ok st)) :
    ∃ payload userId user, decodeAccessToken lib token = .ok payload ∧
      subject lib payload = .ok (some userId) ∧
      ρ h (.getUser userId) = .ok (some user) ∧
      [⟨.getUser userId, .ok (some user)⟩] <+: ((withToken lib token).play ρ h).1 ∧
      user.isActive = true ∧ st.isAdmin = user.isAdmin ∧ st.userId = some user.id := by
  rw [withToken] at hplay ⊢
  split at hplay
  next => cases hplay
  next => cases hplay
  next payload hpayload =>
    split at hplay
    next => cases hplay
    next => cases hplay
    next userId hsubject =>
      obtain ⟨hfirst, found, hfound, hstate⟩ := play_inSession hplay
      obtain ⟨user, rfl, hactive, hadmin, hid⟩ := jwtState_ok hstate
      have hissue := Concurrent.Prog.play_issue ρ h (.getUser userId)
      rw [await, hissue] at hfirst hfound
      replace hfound : ρ h (.getUser userId) = .ok (some user) := hfound
      refine ⟨payload, userId, user, hpayload, hsubject, hfound, ?_, hactive, hadmin, hid⟩
      rw [hfound] at hfirst
      exact hfirst

/-- Only a Bearer token makes an administrator. -/
theorem identify_isAdmin (hplay : ((identify lib r).play ρ h).2 = .ok (.ok st))
    (hadmin : st.isAdmin = true) :
    ∃ token, bearerToken r = some token ∧ identify lib r = withToken lib token := by
  rw [identify] at hplay ⊢
  split at hplay
  next =>
    cases hplay
    cases hadmin
  next hpublic =>
    rw [if_neg hpublic]
    split at hplay
    next token htoken => exact ⟨token, htoken, rfl⟩
    next =>
      dsimp only at hplay
      split at hplay
      next =>
        obtain ⟨-, principal, -, hstate⟩ := play_inSession hplay
        rw [apiKeyState_isAdmin hstate] at hadmin
        cases hadmin
      next =>
        split at hplay
        next => cases hplay
        next =>
          cases hplay
          cases hadmin

/-! ## Which commands are issued -/

/-- The command is not the function of an endpoint. -/
def Lookup (c : Cmd) : Prop := ∀ principal, c ≠ .handler principal

theorem issues_inSession {α : Type} {body : Prog α} {f : α → Except Response State}
    (hbody : body.Issues Lookup) : (inSession body f).Issues Lookup := by
  have hclose : (await .closeSession).Issues Lookup := .issue fun _ => Cmd.noConfusion
  refine .except ((hbody.finally_ hclose).bind fun _ => trivial) fun e q he => ?_
  cases e with
  | sqlAlchemyError =>
    cases he
    trivial
  | http _ _ _ | other => cases he

theorem issues_verifyApiKey (key : Text) : (verifyApiKey lib key).Issues Lookup := by
  refine .bind (.issue fun _ => Cmd.noConfusion) fun found => ?_
  cases found with
  | none => trivial
  | some apiKey =>
    cases hid : apiKey.userId with
    | none =>
      simp only [hid]
      trivial
    | some userId =>
      simp only [hid]
      refine .bind (.issue fun _ => Cmd.noConfusion) fun user => ?_
      cases user <;> trivial

theorem issues_withToken (token : Text) : (withToken lib token).Issues Lookup := by
  rw [withToken]
  split
  next => trivial
  next => trivial
  next =>
    split
    next => trivial
    next => trivial
    next => exact issues_inSession (.issue fun _ => Cmd.noConfusion)

theorem issues_identify : (identify lib r).Issues Lookup := by
  rw [identify]
  split
  next => trivial
  next =>
    split
    next => exact issues_withToken _
    next =>
      dsimp only
      split
      next => exact issues_inSession (issues_verifyApiKey _)
      next => split <;> trivial

theorem requireAdmin_ok {principal : Option Text} (hst : requireAdmin st = .ok principal) :
    st.isAdmin = true ∧ principal = st.userId := by
  rw [requireAdmin, requirePrincipal] at hst
  split at hst
  next => cases hst
  next hprincipal =>
    split at hprincipal
    next =>
      cases hprincipal
      split at hst
      next hadmin =>
        cases hst
        exact ⟨hadmin, rfl⟩
      next => cases hst
    next => cases hprincipal

/-- The function of an endpoint runs for the principal that its dependency returns. -/
theorem issues_callNext (st : State) :
    (callNext st).Issues fun c => ∀ principal, c = .handler principal →
      requireAdmin st = .ok principal := by
  refine .except ?_ fun e q he => ?_
  · rw [endpoint]
    cases hst : requireAdmin st with
    | error e => trivial
    | ok principal =>
      have hparams : (await .params).Issues fun c => ∀ other, c = .handler other →
          (.ok principal : Except Fault (Option Text)) = .ok other := .issue fun _ => Cmd.noConfusion
      refine hparams.bind fun _ => .issue fun other hc => ?_
      cases hc
      rfl
  · cases e with
    | http status detail headers =>
      cases he
      trivial
    | sqlAlchemyError | other => cases he

/-- A handler runs only for a request with a Bearer token whose account is, when it is
looked up, an active administrator. -/
theorem handler_admin {db : Conversation → Accounts} (hρ : Reads ρ db)
    {x : Concurrent.Prog.Exchange Cmd Ans Fault} {principal : Option Text}
    (hx : x ∈ ((serve lib r).play ρ []).1) (hcmd : x.cmd = .handler principal) :
    ∃ token payload userId user, bearerToken r = some token ∧
      decodeAccessToken lib token = .ok payload ∧ subject lib payload = .ok (some userId) ∧
      [⟨.getUser userId, .ok (some user)⟩] <+: ((serve lib r).play ρ []).1 ∧
      user ∈ (db []).users ∧ user.id = userId ∧ user.isActive = true ∧ user.isAdmin = true ∧
      principal = some userId := by
  have hlookup : ∀ y ∈ ((identify lib r).play ρ []).1, Lookup y.cmd := issues_identify.play ρ []
  have hfront : ((identify lib r).play ρ []).1 <+: ((serve lib r).play ρ []).1 :=
    Concurrent.Prog.play_bind_prefix _ _ _
  rw [serve, Concurrent.Prog.bind_eq, Concurrent.Prog.play_bind] at hx
  cases hidentify : ((identify lib r).play ρ []).2 with
  | error e =>
    rw [hidentify] at hx
    exact absurd hcmd (hlookup x hx principal)
  | ok o =>
    rw [hidentify] at hx
    rcases List.mem_append.mp hx with hx | hx
    · exact absurd hcmd (hlookup x hx principal)
    cases o with
    | error response => cases hx
    | ok st =>
      obtain ⟨hadmin, hprincipal⟩ :=
        requireAdmin_ok ((issues_callNext st).play ρ _ x hx principal hcmd)
      obtain ⟨token, htoken, hwith⟩ := identify_isAdmin hidentify hadmin
      rw [hwith] at hidentify hfront
      obtain ⟨payload, userId, user, hpayload, hsubject, hanswer, hfirst, hactive, hst, hid⟩ :=
        withToken_ok hidentify
      have hfound := (hρ [] _ _ hanswer).symm
      have huser : user.id = userId :=
        of_decide_eq_true (List.find?_some (p := fun u : User => decide (u.id = userId)) hfound)
      refine ⟨token, payload, userId, user, htoken, hpayload, hsubject, hfirst.trans hfront,
        List.mem_of_find?_eq_some hfound, huser, hactive, ?_, ?_⟩
      · rw [← hst, hadmin]
      · rw [hprincipal, hid, huser]

end

/-! ## The setting of the tests -/

def mockAdmin : User := ⟨"5f0c", "admin@test", "hpassword", true, true⟩

def mockAccounts : Accounts := ⟨[mockAdmin], []⟩

def mockLibraries : Libraries where
  sha256 _ := "00"
  jwtDecode token :=
    if token = "t".toList then
      .ok [("sub", .str "5f0c"), ("type", .str "access"), ("is_admin", .bool false)]
    else .error .jwtError
  uuid s := if s = Str.ofText "5f0c" then some "5f0c" else none

def mockRequest : Request := ⟨"/admin/queue", [("authorization", "Bearer t"), ("x-api-key", "k")]⟩

def mockOracle : Concurrent.Prog.Oracle Cmd Ans Fault := fun _ c =>
  match c with
  | .getUser id => .ok (mockAccounts.users.find? fun u => decide (u.id = id))
  | .selectApiKey _ => .ok none
  | .handler _ => .ok ⟨200, "ok", []⟩
  | .closeSession | .params => .ok ()

theorem mockOracle_reads : Reads mockOracle fun _ => mockAccounts := by
  intro h c a hanswer
  cases c with
  | getUser id =>
    cases hanswer
    rfl
  | selectApiKey k =>
    cases hanswer
    rfl
  | closeSession | params | handler _ => trivial

theorem handler_admin_mock : ∃ userId user, bearerToken mockRequest = some "t".toList ∧
    user ∈ mockAccounts.users ∧ user.id = userId ∧ user.isAdmin = true := by
  have hhandler : ⟨.handler (some "5f0c".toList), .ok ⟨200, "ok", []⟩⟩ ∈
      ((serve mockLibraries mockRequest).play mockOracle []).1 := by
    have hconversation : ((serve mockLibraries mockRequest).play mockOracle []).1 =
        [⟨.getUser "5f0c".toList, .ok (some mockAdmin)⟩, ⟨.closeSession, .ok ()⟩,
          ⟨.params, .ok ()⟩, ⟨.handler (some "5f0c".toList), .ok ⟨200, "ok", []⟩⟩] := by rfl
    rw [hconversation]
    exact List.mem_of_getElem? (i := 3) rfl
  obtain ⟨token, payload, userId, user, -, -, -, -, hmem, hid, -, hadmin, -⟩ :=
    handler_admin mockOracle_reads hhandler rfl
  exact ⟨userId, user, by decide, hmem, hid, hadmin⟩

end Auth.Admin
end AdaptiveGateway
