/-
How accounts come about.

Three paths insert into `users`: the registration route, the administrative route that
creates another administrator, and the operator command.  Each looks for the email first
and inserts later, so that two of them may both find the email unused; the unique index
decides between them when their sessions are flushed.

An `INSERT` waits for the lock of its email and fails once a committed row has it, and what
is inserted is seen by others when it is committed.  Identifiers are drawn at random and
taken not to repeat.  `creator` is history: the call that inserted a row.
-/
import AdaptiveGateway.Auth.Routes
import AdaptiveGateway.RateLimit

namespace AdaptiveGateway
namespace Auth.Accounts

open Codec Concurrent
open RateLimit (HttpException Fate)

/-! ## Requests -/

/-- A payload that has passed its validation. -/
structure RegisterRequest where
  email : Text
  password : Text
  length : 8 ≤ password.length ∧ password.length ≤ 128
  bytes : (utf8 password).length ≤ 72

/-- `RegisterRequest(email=email, password=password)`, where `emailStr` is what becomes of
a well-formed address. -/
def RegisterRequest.validate (emailStr : Text → Option Text) (email password : Text) :
    Option RegisterRequest :=
  match emailStr email with
  | none => none
  | some address =>
    if h : (8 ≤ password.length ∧ password.length ≤ 128) ∧ (utf8 password).length ≤ 72 then
      some ⟨address, password, h.1, h.2⟩
    else none

inductive Call where
  | register (payload : RegisterRequest) (clientIp : Text)
  | createAdminUser (payload : RegisterRequest)
  /-- `manage.py create-admin`, with the password as typed twice. -/
  | createAdmin (email password again : Text)

structure UserOut where
  id : UserId
  email : Text
  isActive : Bool
  isAdmin : Bool
deriving DecidableEq

inductive Reply where
  | created (user : UserOut)
  | printed (text : Text)
deriving DecidableEq

inductive Fault where
  | http (e : HttpException)
  | integrityError
  /-- The row to refresh is not there. -/
  | invalidRequestError
  | valueError (message : Text)
  /-- pydantic's, which is a `ValueError`. -/
  | validationError
  | systemExit (message : Text)
  | exc (e : Exc)
deriving DecidableEq

/-- `except ValueError`. -/
def Fault.isValueError : Fault → Bool
  | .valueError _ | .validationError | .exc .valueError | .exc .unicodeError => true
  | _ => false

structure Site where
  service : Service
  emailStr : Text → Option Text
  calls : Thread → Call

/-! ## Commands -/

/-- The columns of a `User` that is added to a session. -/
structure NewUser where
  email : Text
  hashedPassword : Text
  isAdmin : Bool := false

inductive Cmd where
  | openSession
  | closeSession
  | enforceRateLimit (clientIp scope : Text) (limit window : Nat)
  | selectByEmail (email : Text)
  /-- `pwd_context.hash`, in a thread of its own or not. -/
  | pwdHash (password : Text)
  | insert (new : NewUser)
  | commit
  | rollback
  /-- `session.refresh` of the added user. -/
  | refresh (email : Text)
  | disposeEngine

abbrev Ans : Cmd → Type
  | .selectByEmail _ => Option User
  | .pwdHash _ => Text
  | .refresh _ => User
  | _ => Unit

def Cmd.waits : Cmd → Bool
  | .openSession | .closeSession | .enforceRateLimit _ _ _ _ => false
  | _ => true

inductive Choice where
  | done
  | fate (f : Fate)
  | text (t : Text)
  | uuid (id : UserId)
  /-- The command fails and has done nothing. -/
  | refused (e : Exc)
  /-- The command has taken effect and is reported as failed. -/
  | lost (e : Exc)

structure Row where
  user : User
  creator : Option Thread := none

structure World where
  users : Table Thread Text Row := {}
  redis : RateLimit.Redis := {}

namespace World

def commit (i : Thread) (s : World) : World := { s with users := s.users.commit i }

def rollback (i : Thread) (s : World) : World := { s with users := s.users.rollback i }

end World

/-- The row of a new user. -/
def NewUser.row (new : NewUser) (id : UserId) (i : Thread) : Row :=
  ⟨⟨id, new.email, new.hashedPassword, true, new.isAdmin⟩, some i⟩

def exec (site : Site) (i : Thread) :
    (c : Cmd) → Choice → World → Option (Except Fault (Ans c) × World)
  | .openSession, .done, s => some (.ok (), s)
  | .closeSession, .done, s => some (.ok (), s.rollback i)
  | .enforceRateLimit clientIp scope limit window, .fate f, s =>
    let o := RateLimit.enforceRateLimit site.service.settings.isProduction clientIp scope limit
      window f s.redis
    some (o.1.mapError Fault.http, { s with redis := o.2 })
  | .selectByEmail email, .done, s => some (.ok ((s.users.current i email).map Row.user), s)
  | .pwdHash password, .text hashed, s =>
    -- A hash that is made for a password verifies it.
    if site.service.lib.pwdVerify password hashed then some (.ok hashed, s) else none
  | .insert new, .uuid id, s =>
    match s.users.current i new.email with
    | some _ => some (.error .integrityError, s)
    | none => (s.users.write i new.email (new.row id i)).map
        fun t => (.ok (), { s with users := t })
  | .commit, .done, s => some (.ok (), s.commit i)
  | .commit, .lost e, s => some (.error (.exc e), s.commit i)
  | .rollback, .done, s => some (.ok (), s.rollback i)
  | .refresh email, .done, s =>
    match s.users.current i email with
    | some row => some (.ok row.user, s)
    | none => some (.error .invalidRequestError, s)
  | .disposeEngine, .done, s => some (.ok (), s)
  | c, .refused e, s => if c.waits then some (.error (.exc e), s) else none
  | _, _, _ => none

/-! ## The three paths -/

abbrev Prog (α : Type) := Concurrent.Prog Cmd Ans Fault α

def await (c : Cmd) : Prog (Ans c) := Concurrent.Prog.issue c

def emailTaken : Fault := .http ⟨409, "email already registered", []⟩

def hashPassword (password : Text) : Prog Text :=
  if 72 < (utf8 password).length then
    .raise (.valueError "Password exceeds bcrypt's 72-byte limit")
  else await (.pwdHash password)

/-- `db.add(user)` and `await db.commit()`, which flushes first. -/
def addUser (new : NewUser) : Prog Unit := do
  await (.insert new)
  await .commit

def userOut (user : User) : Reply := .created ⟨user.id, user.email, user.isActive, user.isAdmin⟩

/-- `except IntegrityError` of `register`. -/
def integrityError (e : Fault) : Option (Prog Unit) :=
  if e = .integrityError then
    some (do
      await .rollback
      Concurrent.Prog.raise emailTaken)
  else none

def register (payload : RegisterRequest) (clientIp : Text) : Prog Reply := do
  await (.enforceRateLimit clientIp "register" 20 60)
  let existing ← await (.selectByEmail payload.email)
  if existing.isSome then .raise emailTaken
  else do
    let hashed ← hashPassword payload.password
    Concurrent.Prog.except (addUser { email := payload.email, hashedPassword := hashed })
      integrityError
    let user ← await (.refresh payload.email)
    return userOut user

def createAdminUser (payload : RegisterRequest) : Prog Reply := do
  let existing ← await (.selectByEmail payload.email)
  if existing.isSome then .raise emailTaken
  else do
    let hashed ← hashPassword payload.password
    addUser { email := payload.email, hashedPassword := hashed, isAdmin := true }
    let user ← await (.refresh payload.email)
    return userOut user

/-- `create_admin` inside its session. -/
def addAdmin (payload : RegisterRequest) : Prog Unit := do
  let existing ← await (.selectByEmail payload.email)
  if existing.isSome then .raise (.valueError "Account exists; no permissions changed")
  else do
    let hashed ← hashPassword payload.password
    addUser { email := payload.email, hashedPassword := hashed, isAdmin := true }

def createAdmin (emailStr : Text → Option Text) (email password : Text) : Prog Unit :=
  match RegisterRequest.validate emailStr email password with
  | none => .raise .validationError
  | some payload =>
    Concurrent.Prog.finally_
      (do
        await .openSession
        Concurrent.Prog.finally_ (addAdmin payload) (await .closeSession))
      (await .disposeEngine)

/-- `main` of `manage.py`. -/
def manage (emailStr : Text → Option Text) (email password again : Text) : Prog Reply :=
  if password ≠ again then .raise (.systemExit "Passwords differ")
  else do
    Concurrent.Prog.except (createAdmin emailStr email password) fun e =>
      if e.isValueError = true then
        some (.raise (.systemExit "Account exists or email/password is invalid"))
      else none
    return .printed "Administrator created."

/-- A route, from the moment its session is opened to the moment it is closed. -/
def inSession (route : Prog Reply) : Prog Reply := do
  await .openSession
  Concurrent.Prog.finally_ route (await .closeSession)

def serve (site : Site) : Call → Prog Reply
  | .register payload clientIp => inSession (register payload clientIp)
  | .createAdminUser payload => inSession (createAdminUser payload)
  | .createAdmin email password again => manage site.emailStr email password again

/-- `Event` is the time that passes. -/
def machine (site : Site) : Machine Thread Cmd Ans Fault Reply World Choice Time where
  exec := exec site
  env d s := some { s with redis := s.redis.advance d }
  drop i s := s.rollback i
  boot i := serve site (site.calls i)
  again _ _ := none

abbrev State := Pool Thread Cmd Ans Fault Reply World

/-! ## What every command keeps -/

/-- What is not committed is new, and on record with whoever inserted it. -/
structure Shaped (s : World) : Prop where
  coherent : s.users.Coherent
  absent : ∀ i k v, (k, v) ∈ s.users.pending i → s.users.get? k = none
  signed : ∀ i k v, (k, v) ∈ s.users.pending i → v.creator = some i

/-- Committed rows stay as they are. -/
def Grows (s t : World) : Prop := ∀ k v, s.users.get? k = some v → t.users.get? k = some v

/-- What the others leave alone of the call `i`. -/
structure Rely (i : Thread) (s t : World) : Prop where
  respects : Table.Respects i s.users t.users
  grows : Grows s t
  foreign : ∀ k v, t.users.get? k = some v → s.users.get? k = some v ∨ v.creator ≠ some i

section Commands

variable {site : Site} {s t u : World} {i j : Thread} {k : Text} {v : Row}

theorem Grows.trans (hst : Grows s t) (htu : Grows t u) : Grows s u :=
  fun k v hv => htu k v (hst k v hv)

theorem Rely.refl (i : Thread) (s : World) : Rely i s s :=
  ⟨.refl i s.users, fun _ _ hv => hv, fun _ _ hv => Or.inl hv⟩

theorem Rely.trans (hst : Rely i s t) (htu : Rely i t u) : Rely i s u where
  respects := hst.respects.trans htu.respects
  grows := hst.grows.trans htu.grows
  foreign k v hv := (htu.foreign k v hv).elim (hst.foreign k v) Or.inr

theorem World.commit_get? : (s.commit i).users.get? k = s.users.current i k :=
  Table.commit_get? k

/-- A commit publishes rows that were not there before. -/
theorem Shaped.grows_commit (hs : Shaped s) (i : Thread) : Grows s (s.commit i) := by
  intro k v hv
  rw [World.commit_get?, Table.current]
  cases hl : Dict.lookup k (s.users.pending i) with
  | none => rw [Option.none_or, hv]
  | some w =>
    rw [hs.absent i k w (Dict.mem_of_lookup hl)] at hv
    cases hv

/-- What is new after a commit was pending. -/
theorem mem_pending_of_commit (hv : (s.commit i).users.get? k = some v) :
    s.users.get? k = some v ∨ (k, v) ∈ s.users.pending i := by
  rw [World.commit_get?, Table.current] at hv
  cases hl : Dict.lookup k (s.users.pending i) with
  | none =>
    rw [hl, Option.none_or] at hv
    exact Or.inl hv
  | some w =>
    rw [hl] at hv
    cases hv
    exact Or.inr (Dict.mem_of_lookup hl)

theorem Shaped.commit (hs : Shaped s) (i : Thread) :
    Shaped (s.commit i) ∧ ∀ j, i ≠ j → Rely j s (s.commit i) := by
  have hrely : ∀ j, i ≠ j → Rely j s (s.commit i) := by
    intro j hij
    refine ⟨hs.coherent.respects_commit hij.symm, hs.grows_commit i, fun k v hv => ?_⟩
    refine (mem_pending_of_commit hv).imp id fun hmem => ?_
    rw [hs.signed i k v hmem]
    exact fun h => hij (Option.some.inj h)
  refine ⟨⟨hs.coherent.commit, fun j k v hv => ?_, fun j k v hv => ?_⟩, hrely⟩
  · by_cases hij : i = j
    · subst hij
      rw [show (s.commit i).users.pending i = [] from Table.rollback_pending] at hv
      cases hv
    · rw [(hrely j hij).respects.pending] at hv
      exact ((hrely j hij).respects.rows k (hs.coherent j k v hv)).trans (hs.absent j k v hv)
  · by_cases hij : i = j
    · subst hij
      rw [show (s.commit i).users.pending i = [] from Table.rollback_pending] at hv
      cases hv
    · rw [(hrely j hij).respects.pending] at hv
      exact hs.signed j k v hv

theorem Shaped.rollback (hs : Shaped s) (i : Thread) :
    Shaped (s.rollback i) ∧ ∀ j, i ≠ j → Rely j s (s.rollback i) := by
  have hmem : ∀ j k v, (k, v) ∈ (s.rollback i).users.pending j → (k, v) ∈ s.users.pending j := by
    intro j k v hv
    by_cases hij : i = j
    · subst hij
      rw [show (s.rollback i).users.pending i = [] from Table.rollback_pending] at hv
      cases hv
    · rwa [show (s.rollback i).users.pending j = _ from
        Table.rollback_pending_of_ne (Ne.symm hij)] at hv
  refine ⟨⟨hs.coherent.rollback, fun j k v hv => hs.absent j k v (hmem j k v hv),
    fun j k v hv => hs.signed j k v (hmem j k v hv)⟩, fun j hij => ?_⟩
  exact ⟨Table.respects_rollback hij.symm, fun _ _ hv => hv, fun _ _ hv => Or.inl hv⟩

theorem Shaped.insert (hs : Shaped s) {T : Table Thread Text Row}
    (hnone : s.users.current i k = none) (hv : v.creator = some i)
    (hT : s.users.write i k v = some T) :
    Shaped { s with users := T } ∧ ∀ j, i ≠ j → Rely j s { s with users := T } := by
  have hrows := Table.write_get? hT
  have hmem : ∀ j k' v', (k', v') ∈ T.pending j →
      (j = i ∧ k' = k ∧ v' = v) ∨ (k', v') ∈ s.users.pending j := by
    intro j k' v' hv'
    by_cases hij : j = i
    · subst hij
      rw [Table.write_pending hT] at hv'
      exact (List.mem_cons.mp hv').imp (fun h => ⟨rfl, Prod.mk.inj h⟩) id
    · rw [Table.write_pending_of_ne hT hij] at hv'
      exact Or.inr hv'
  refine ⟨⟨hs.coherent.write hT, fun j k' v' hv' => ?_, fun j k' v' hv' => ?_⟩, fun j hij => ?_⟩
  · show T.get? k' = none
    rw [hrows]
    rcases hmem j k' v' hv' with ⟨-, rfl, -⟩ | hold
    · exact (Option.or_eq_none_iff.mp hnone).2
    · exact hs.absent j k' v' hold
  · rcases hmem j k' v' hv' with ⟨rfl, -, rfl⟩ | hold
    · exact hv
    · exact hs.signed j k' v' hold
  · exact ⟨Table.respects_write hT hij.symm, fun k' v' hv' => (hrows k').trans hv',
      fun k' v' hv' => Or.inl ((hrows k').symm.trans hv')⟩

/-- Nothing but the counters of the rate limiter has changed. -/
theorem Rely.elsewhere (i : Thread) (s : World) (r : RateLimit.Redis) :
    Rely i s { s with redis := r } :=
  ⟨.refl i s.users, fun _ _ hv => hv, fun _ _ hv => Or.inl hv⟩

theorem Shaped.elsewhere (hs : Shaped s) (r : RateLimit.Redis) : Shaped { s with redis := r } :=
  ⟨hs.coherent, hs.absent, hs.signed⟩

/-- Everything a command can do to the state. -/
theorem exec_cases {c : Cmd} {ch : Choice} {r : Except Fault (Ans c)} {s' : World}
    (h : exec site i c ch s = some (r, s')) :
    (∃ redis, s' = { s with redis := redis }) ∨ (c = .commit ∧ s' = s.commit i) ∨
    ((c = .rollback ∨ c = .closeSession) ∧ s' = s.rollback i) ∨
    ∃ new id T, c = .insert new ∧ s.users.current i new.email = none ∧
      s.users.write i new.email (new.row id i) = some T ∧ s' = { s with users := T } := by
  cases c with
  | insert new =>
    cases ch with
    | uuid id =>
      simp only [exec] at h
      split at h
      next => cases h; exact Or.inl ⟨s.redis, rfl⟩
      next hnone =>
        obtain ⟨T, hT, heq⟩ := Option.map_eq_some_iff.mp h
        cases heq
        exact Or.inr (Or.inr (Or.inr ⟨new, id, T, rfl, hnone, hT, rfl⟩))
    | refused e => cases h; exact Or.inl ⟨s.redis, rfl⟩
    | done | fate | text | lost => cases h
  | commit =>
    cases ch with
    | done | lost => cases h; exact Or.inr (Or.inl ⟨rfl, rfl⟩)
    | refused e => cases h; exact Or.inl ⟨s.redis, rfl⟩
    | fate | text | uuid => cases h
  | rollback =>
    cases ch with
    | done => cases h; exact Or.inr (Or.inr (Or.inl ⟨Or.inl rfl, rfl⟩))
    | refused e => cases h; exact Or.inl ⟨s.redis, rfl⟩
    | fate | text | uuid | lost => cases h
  | closeSession =>
    cases ch with
    | done => cases h; exact Or.inr (Or.inr (Or.inl ⟨Or.inr rfl, rfl⟩))
    | refused | fate | text | uuid | lost => cases h
  | enforceRateLimit =>
    cases ch with
    | fate f => cases h; exact Or.inl ⟨_, rfl⟩
    | done | refused | text | uuid | lost => cases h
  | openSession | selectByEmail | pwdHash | refresh | disposeEngine =>
    have hsame : s' = s := by
      cases ch <;> simp only [exec, Cmd.waits] at h <;> grind
    exact Or.inl ⟨s.redis, hsame⟩

/-- What a command does to the others, whatever it is. -/
theorem Shaped.exec (hs : Shaped s) {c : Cmd} {ch : Choice} {r : Except Fault (Ans c)} {s' : World}
    (h : exec site i c ch s = some (r, s')) : Shaped s' ∧ ∀ j, i ≠ j → Rely j s s' := by
  obtain ⟨redis, rfl⟩ | ⟨-, rfl⟩ | ⟨-, rfl⟩ | ⟨new, id, T, rfl, hnone, hT, rfl⟩ := exec_cases h
  · exact ⟨hs.elsewhere redis, fun j _ => .elsewhere j s redis⟩
  · exact hs.commit i
  · exact hs.rollback i
  · exact hs.insert hnone rfl hT

/-- A row that is new after a command is one of the call's own. -/
theorem creator_of_exec (hs : Shaped s) {c : Cmd} {ch : Choice} {r : Except Fault (Ans c)}
    {s' : World} (h : exec site i c ch s = some (r, s')) (hv : s'.users.get? k = some v) :
    s.users.get? k = some v ∨ v.creator = some i := by
  obtain ⟨redis, rfl⟩ | ⟨-, rfl⟩ | ⟨-, rfl⟩ | ⟨new, id, T, rfl, hnone, hT, rfl⟩ := exec_cases h
  · exact Or.inl hv
  · exact (mem_pending_of_commit hv).imp id (hs.signed i k v)
  · exact Or.inl hv
  · exact Or.inl ((Table.write_get? hT k).symm.trans hv)

end Commands

/-- A committed account is never changed again, and never goes. -/
theorem grows_of_reach {site : Site} {g : Guard Thread Cmd World Choice Time} {p q : State}
    (hq : (machine site).Reach g p q) (hp : Shaped p.state) : Grows p.state q.state := by
  refine (hq.state_invariant (J := fun s => Shaped s ∧ Grows p.state s)
    (fun i c ch s r s' _ hs h => ?_) (fun i s _ hs => ?_) (fun d s s' _ hs h => ?_)
    ⟨hp, fun _ _ hv => hv⟩).2
  · obtain ⟨hs', hrely⟩ := hs.1.exec h
    exact ⟨hs', hs.2.trans (hrely (i + 1) (Nat.succ_ne_self i).symm).grows⟩
  · exact ⟨(hs.1.rollback i).1, hs.2⟩
  · cases h
    exact ⟨hs.1.elsewhere _, hs.2⟩

/-! ## What a call leaves behind -/

/-- The payload of a call, if it has one. -/
def Site.payload (site : Site) (i : Thread) : Option RegisterRequest :=
  match site.calls i with
  | .register payload _ | .createAdminUser payload => some payload
  | .createAdmin email password _ => RegisterRequest.validate site.emailStr email password

def Call.isRegister : Call → Bool
  | .register _ _ => true
  | _ => false

/-- The account that a call is to make: the email is its own, the password opens it, and
registration makes no administrators. -/
structure Makes (site : Site) (i : Thread) (k : Text) (user : User) : Prop where
  email : user.email = k
  active : user.isActive = true
  admin : user.isAdmin = !(site.calls i).isRegister
  payload : ∃ p, site.payload i = some p ∧ p.email = k ∧
    verifyPassword site.service p.password user.hashedPassword = true

/-- Whatever a call has inserted is the account it was to make. -/
structure Sound (site : Site) (s : World) : Prop extends Shaped s where
  drafted : ∀ i k v, (k, v) ∈ s.users.pending i → Makes site i k v.user
  made : ∀ i k v, s.users.get? k = some v → v.creator = some i → Makes site i k v.user

/-- The email of the call belongs to an account that the call has made. -/
def Mine (site : Site) (i : Thread) (s : World) : Prop :=
  ∃ p v, site.payload i = some p ∧ s.users.get? p.email = some v ∧ v.creator = some i

/-- The email of the call belongs to an account that another has made. -/
def Taken (site : Site) (i : Thread) (s : World) : Prop :=
  ∃ p v, site.payload i = some p ∧ s.users.get? p.email = some v ∧ v.creator ≠ some i

/-- The exceptions a call may end with. -/
def Call.mayRaise : Call → Fault → Bool
  | _, .exc _ => true
  | .register _ _, .http e =>
    e = ⟨409, "email already registered", []⟩ ∨ e = ⟨503, "rate limiter unavailable", []⟩ ∨
      e = ⟨429, "rate limit exceeded", [("Retry-After", "60")]⟩
  | .createAdminUser _, .http e => e = ⟨409, "email already registered", []⟩
  | .createAdminUser _, .integrityError => true
  | .createAdmin _ _ _, .integrityError | .createAdmin _ _ _, .systemExit _ => true
  | _, _ => false

structure Ended (site : Site) (i : Thread) (r : Except Fault Reply) (s : World) : Prop where
  made : ∀ reply, r = .ok reply → Mine site i s ∧ ∀ u, reply = .created u →
    ∃ p v, site.payload i = some p ∧ s.users.get? p.email = some v ∧ userOut v.user = .created u
  taken : r = .error emailTaken ∨ r = .error .integrityError → Taken site i s
  raised : ∀ f, r = .error f → (site.calls i).mayRaise f = true

section Contract

variable {site : Site} {g : Guard Thread Cmd World Choice Time} {s t : World} {i j : Thread}
  {k : Text} {v : Row}

/-- Rows that were there before, in the table or in a transaction, are what they were. -/
theorem Sound.of_rows (hs : Sound site s) (ht : Shaped t)
    (hp : ∀ j k v, (k, v) ∈ t.users.pending j → (k, v) ∈ s.users.pending j)
    (hv : ∀ k v, t.users.get? k = some v →
      s.users.get? k = some v ∨ ∃ j, (k, v) ∈ s.users.pending j) : Sound site t where
  toShaped := ht
  drafted j k v hmem := hs.drafted j k v (hp j k v hmem)
  made j k v hk hj := by
    rcases hv k v hk with hold | ⟨i, hmem⟩
    · exact hs.made j k v hold hj
    · have hij : i = j := Option.some.inj ((hs.signed i k v hmem).symm.trans hj)
      exact hij ▸ hs.drafted i k v hmem

theorem pending_commit (hv : (k, v) ∈ (s.users.rollback i).pending j) :
    (k, v) ∈ s.users.pending j := by
  by_cases hij : j = i
  · subst hij
    rw [Table.rollback_pending] at hv
    cases hv
  · rwa [Table.rollback_pending_of_ne hij] at hv

theorem Sound.exec (hs : Sound site s) {c : Cmd} {ch : Choice} {r : Except Fault (Ans c)}
    {s' : World} (h : exec site i c ch s = some (r, s'))
    (hmakes : ∀ new id, c = .insert new → Makes site i new.email (new.row id i).user) :
    Sound site s' := by
  have hs' := (hs.toShaped.exec h).1
  obtain ⟨redis, rfl⟩ | ⟨-, rfl⟩ | ⟨-, rfl⟩ | ⟨new, id, T, rfl, hnone, hT, rfl⟩ := exec_cases h
  · exact hs.of_rows hs' (fun _ _ _ hv => hv) fun _ _ hv => Or.inl hv
  · exact hs.of_rows hs' (fun _ _ _ hv => pending_commit hv) fun k v hv =>
      (mem_pending_of_commit hv).imp id fun hmem => ⟨i, hmem⟩
  · exact hs.of_rows hs' (fun _ _ _ hv => pending_commit hv) fun _ _ hv => Or.inl hv
  · refine ⟨hs', fun j k v hv => ?_, fun j k v hv hj => ?_⟩
    · by_cases hij : j = i
      · subst hij
        rw [show _ = _ from Table.write_pending hT] at hv
        rcases List.mem_cons.mp hv with heq | hv
        · cases heq
          exact hmakes new id rfl
        · exact hs.drafted j k v hv
      · rw [show _ = _ from Table.write_pending_of_ne hT hij] at hv
        exact hs.drafted j k v hv
    · exact hs.made j k v ((Table.write_get? hT k).symm.trans hv) hj

theorem Sound.rollback (hs : Sound site s) (i : Thread) : Sound site (s.rollback i) :=
  hs.of_rows (hs.toShaped.rollback i).1 (fun _ _ _ hv => pending_commit hv) fun _ _ hv => Or.inl hv

def contract (site : Site) (g : Guard Thread Cmd World Choice Time) :
    Contract (machine site) g where
  I := Sound site
  R := Rely
  G i s t := ∀ j, i ≠ j → Rely j s t
  Q := Ended site
  refl := Rely.refl
  trans _ _ _ _ := Rely.trans
  others _ j _ _ hij _ _ hG := hG j hij
  env d s s' _ hs h := by
    cases h
    exact ⟨hs.of_rows (hs.toShaped.elsewhere _) (fun _ _ _ hv => hv) fun _ _ hv => Or.inl hv,
      fun j => .elsewhere j s _⟩
  crash i s _ hs := ⟨hs.rollback i, (hs.toShaped.rollback i).2⟩

/-- The rule for one command. -/
theorem wp_await {c : Cmd} {Q : Except Fault (Ans c) → World → Prop}
    (hmakes : ∀ new id, c = .insert new → Makes site i new.email (new.row id i).user)
    (h : ∀ ch r s' t, exec site i c ch s = some (r, s') → Rely i s' t → Q r t) :
    (await c).wp ((contract site g).pact i) Q s := by
  refine Prog.wp_issue ?_
  rintro r s' ⟨ch, -, hs, hexec⟩
  exact ⟨Sound.exec hs hexec hmakes, (Shaped.exec hs.toShaped hexec).2,
    fun t _ hst => h ch r s' t hexec hst⟩

/-- What the others cannot falsify. -/
def Stable (i : Thread) (L : World → Prop) : Prop := ∀ s t, Rely i s t → L s → L t

/-- The call has inserted nothing yet. -/
structure Idle (i : Thread) (s : World) : Prop where
  pending : s.users.pending i = []
  fresh : ∀ k v, s.users.get? k = some v → v.creator ≠ some i

theorem Idle.stable : Stable i (Idle i) := fun _ _ hst hs =>
  ⟨hst.respects.pending.trans hs.pending, fun k v hv => (hst.foreign k v hv).elim (hs.fresh k v) id⟩

theorem Mine.stable : Stable i (Mine site i) :=
  fun _ _ hst ⟨p, v, hp, hv, hc⟩ => ⟨p, v, hp, hst.grows p.email v hv, hc⟩

theorem Taken.stable : Stable i (Taken site i) :=
  fun _ _ hst ⟨p, v, hp, hv, hc⟩ => ⟨p, v, hp, hst.grows p.email v hv, hc⟩

/-- The call has inserted its row and not committed it. -/
def Drafted (site : Site) (i : Thread) (s : World) : Prop :=
  ∃ p v, site.payload i = some p ∧ s.users.pending i = [(p.email, v)] ∧ v.creator = some i

theorem Drafted.stable : Stable i (Drafted site i) :=
  fun _ _ hst ⟨p, v, hp, hv, hc⟩ => ⟨p, v, hp, hst.respects.pending.trans hv, hc⟩

/-- The commands that leave the accounts alone. -/
def Cmd.looks : Cmd → Bool
  | .insert _ | .commit | .rollback | .closeSession => false
  | _ => true

theorem wp_look {c : Cmd} (hc : c.looks = true) {Q : Except Fault (Ans c) → World → Prop}
    (h : ∀ ch r s' t, exec site i c ch s = some (r, s') → Rely i s t → Q r t) :
    (await c).wp ((contract site g).pact i) Q s := by
  refine wp_await (fun new id hnew => ?_) fun ch r s' t hexec hst => h ch r s' t hexec ?_
  · rw [hnew] at hc
    cases hc
  · obtain ⟨redis, rfl⟩ | ⟨rfl, -⟩ | ⟨rfl | rfl, -⟩ | ⟨_, _, _, rfl, -⟩ := exec_cases hexec
    · exact (Rely.elsewhere i s redis).trans hst
    · cases hc
    · cases hc
    · cases hc
    · cases hc

end Contract

section Routes

variable {site : Site} {g : Guard Thread Cmd World Choice Time} {s t : World} {i : Thread}
  {α : Type} {payload : RegisterRequest} {L : World → Prop}

theorem enforceRateLimit_error {isProduction : Bool} {clientIp : Text} {fate : Fate}
    {redis : RateLimit.Redis} {e : HttpException}
    (h : (RateLimit.enforceRateLimit isProduction clientIp "register" 20 60 fate redis).1 =
      .error e) :
    e = ⟨503, "rate limiter unavailable", []⟩ ∨
      e = ⟨429, "rate limit exceeded", [("Retry-After", "60")]⟩ := by
  simp only [RateLimit.enforceRateLimit] at h
  split at h
  next hcheck =>
    cases h
    cases fate <;> cases isProduction <;> simp [RateLimit.checkRateLimit] at hcheck
    all_goals exact Or.inl hcheck.symm
  next => cases h
  next =>
    cases h
    exact Or.inr rfl

/-- Something ends as `K` says, or with an exception from outside. -/
def Ok (K : α → World → Prop) : Except Fault α → World → Prop
  | .ok a, t => K a t
  | .error f, _ => ∃ e, f = .exc e

/-- What becomes of the row: it is there, or another account has the email. -/
def Added (site : Site) (i : Thread) : Except Fault Unit → World → Prop
  | .ok _, t => Mine site i t ∧ t.users.pending i = []
  | .error f, t => (f = .integrityError ∧ Taken site i t) ∨ ∃ e, f = .exc e

/-- The index of emails decides: the email is free, or an account of another has it. -/
theorem wp_selectByEmail (hp : site.payload i = some payload) (hs : Idle i s) :
    (await (.selectByEmail payload.email)).wp ((contract site g).pact i)
      (Ok fun existing t =>
        Idle i t ∧ (existing.isSome = true → Taken site i t)) s := by
  refine wp_look rfl fun ch r s' t hexec hst => ?_
  have ht := Idle.stable s t hst hs
  cases ch with
  | done =>
    cases hexec
    refine ⟨ht, fun hsome => ?_⟩
    rw [Option.isSome_map, Table.current, hs.pending] at hsome
    obtain ⟨v, hv⟩ := Option.isSome_iff_exists.mp hsome
    exact Taken.stable s t hst ⟨payload, v, hp, hv, hs.fresh payload.email v hv⟩
  | refused e =>
    cases hexec
    exact ⟨e, rfl⟩
  | fate | text | uuid | lost => cases hexec

theorem wp_hashPassword (hs : Idle i s) :
    (hashPassword payload.password).wp ((contract site g).pact i)
      (Ok fun hashed t =>
        Idle i t ∧ verifyPassword site.service payload.password hashed = true) s := by
  rw [hashPassword, if_neg (Nat.not_lt.mpr payload.bytes)]
  refine wp_look rfl fun ch r s' t hexec hst => ?_
  cases ch with
  | text hashed =>
    simp only [exec] at hexec
    split at hexec
    next hverify =>
      cases hexec
      refine ⟨Idle.stable s t hst hs, ?_⟩
      rw [verifyPassword, if_neg (Nat.not_lt.mpr payload.bytes), hverify]
    next => cases hexec
  | refused e =>
    cases hexec
    exact ⟨e, rfl⟩
  | done | fate | uuid | lost => cases hexec

/-- The row is inserted and committed, or another one is there. -/
theorem wp_addUser (hs : Idle i s) (hp : site.payload i = some payload) {hashed : Text}
    (hverify : verifyPassword site.service payload.password hashed = true) {isAdmin : Bool}
    (hadmin : isAdmin = !(site.calls i).isRegister) :
    (addUser ⟨payload.email, hashed, isAdmin⟩).wp ((contract site g).pact i)
      (Added site i) s := by
  refine Prog.wp_seq (L := fun r t => match r with
      | .ok _ => Drafted site i t
      | .error f => Added site i (.error f) t) (wp_await (fun new id hnew => ?_)
    fun ch r s' t hexec hst => ?_) (fun _ _ hf => hf) fun _ t ht => ?_
  · cases hnew
    exact ⟨rfl, rfl, hadmin, payload, hp, rfl, hverify⟩
  · cases ch with
    | uuid id =>
      simp only [exec, Table.current, hs.pending] at hexec
      split at hexec
      next v hv =>
        cases hexec
        refine Or.inl ⟨rfl, Taken.stable s t hst ⟨payload, v, hp, hv, hs.fresh _ v hv⟩⟩
      next =>
        obtain ⟨T, hT, heq⟩ := Option.map_eq_some_iff.mp hexec
        cases heq
        refine Drafted.stable _ t hst ⟨payload, NewUser.row ⟨payload.email, hashed, isAdmin⟩ id i,
          hp, ?_, rfl⟩
        show T.pending i = _
        rw [Table.write_pending hT, hs.pending]
    | refused e =>
      cases hexec
      exact Or.inr ⟨e, rfl⟩
    | done | fate | text | lost => cases hexec
  · obtain ⟨p, v, hp', hpending, hcreator⟩ := ht
    refine wp_await (fun _ _ h => by cases h) fun ch r s' u hexec hst => ?_
    cases ch with
    | done =>
      cases hexec
      have hmine : Mine site i (t.commit i) := by
        refine ⟨p, v, hp', ?_, hcreator⟩
        rw [World.commit_get?, Table.current, hpending]
        simp [Dict.lookup]
      exact ⟨Mine.stable _ u hst hmine, hst.respects.pending.trans Table.rollback_pending⟩
    | lost e | refused e =>
      cases hexec
      exact Or.inr ⟨e, rfl⟩
    | fate | text | uuid => cases hexec

theorem Ended.exc (e : Exc) : Ended site i (.error (.exc e)) s where
  made _ h := by cases h
  taken h := by rcases h with h | h <;> cases h
  raised f h := by
    cases h
    cases site.calls i <;> rfl

theorem Ended.taken_of {f : Fault} (hs : Taken site i s)
    (hraise : (site.calls i).mayRaise f = true) : Ended site i (.error f) s where
  made _ h := by cases h
  taken _ := hs
  raised _ h := by
    cases h
    exact hraise

theorem Ended.mono {r : Except Fault Reply} (h : Ended site i r s) (hst : Grows s t) :
    Ended site i r t where
  made reply hr := by
    obtain ⟨⟨p, v, hp, hv, hc⟩, hout⟩ := h.made reply hr
    refine ⟨⟨p, v, hp, hst p.email v hv, hc⟩, fun u hu => ?_⟩
    obtain ⟨p, v, hp, hv, hvu⟩ := hout u hu
    exact ⟨p, v, hp, hst p.email v hv, hvu⟩
  taken hr := by
    obtain ⟨p, v, hp, hv, hc⟩ := h.taken hr
    exact ⟨p, v, hp, hst p.email v hv, hc⟩
  raised := h.raised

/-- The answer shows the row that was committed. -/
theorem wp_refresh (hp : site.payload i = some payload) (hs : Mine site i s)
    (hpending : s.users.pending i = []) :
    Prog.wp ((contract site g).pact i) (do
        let user ← await (.refresh payload.email)
        return userOut user) (Ended site i) s := by
  obtain ⟨p, v, hp', hv, hcreator⟩ := hs
  obtain rfl : payload = p := Option.some.inj (hp.symm.trans hp')
  refine Prog.wp_seq (L := fun r t => (∃ e, r = .error (.exc e)) ∨
      (r = .ok v.user ∧ t.users.get? payload.email = some v))
    (wp_look rfl fun ch r s' t hexec hst => ?_) (fun _ t hf => ?_) fun user t ht => ?_
  · cases ch with
    | done =>
      simp only [exec, Table.current, hpending, Dict.lookup, Option.none_or, hv] at hexec
      cases hexec
      exact Or.inr ⟨rfl, hst.grows payload.email v hv⟩
    | refused e =>
      cases hexec
      exact Or.inl ⟨e, rfl⟩
    | fate | text | uuid | lost => cases hexec
  · rcases hf with ⟨e, he⟩ | ⟨he, -⟩
    · cases he
      exact .exc e
    · cases he
  · obtain ⟨e, he⟩ | ⟨he, hv⟩ := ht
    · cases he
    · cases he
      refine ⟨fun reply hreply => ?_, fun h => (by rcases h with h | h <;> cases h),
        fun _ h => (by cases h)⟩
      cases hreply
      exact ⟨⟨payload, v, hp, hv, hcreator⟩, fun u hu => ⟨payload, v, hp, hv, hu⟩⟩

/-- An exception from outside ends the call. -/
theorem Ended.of_exc {f : Fault} (hf : ∃ e, f = .exc e) : Ended site i (.error f) s := by
  obtain ⟨e, rfl⟩ := hf
  exact .exc e

theorem wp_createAdminUser (hcall : site.calls i = .createAdminUser payload) (hs : Idle i s) :
    (createAdminUser payload).wp ((contract site g).pact i) (Ended site i) s := by
  have hp : site.payload i = some payload := by rw [Site.payload, hcall]
  refine Prog.wp_seq (wp_selectByEmail hp hs) (fun _ _ hf => .of_exc hf) fun existing t ht => ?_
  show Prog.wp _ (if _ then _ else _) _ _
  split
  next hsome =>
    exact .taken_of (ht.2 hsome) (by simp [hcall, Call.mayRaise, emailTaken])
  next =>
    refine Prog.wp_seq (wp_hashPassword ht.1) (fun _ _ hf => .of_exc hf) fun hashed t ht => ?_
    refine Prog.wp_seq (wp_addUser ht.1 hp ht.2 (by rw [hcall]; rfl)) (fun f t hf => ?_)
      fun _ t ht => wp_refresh hp ht.1 ht.2
    obtain ⟨rfl, htaken⟩ | hf := hf
    · exact .taken_of htaken (by rw [hcall]; rfl)
    · exact .of_exc hf

theorem wp_enforceRateLimit {clientIp : Text} (hcall : site.calls i = .register payload clientIp)
    (hs : Idle i s) :
    (await (.enforceRateLimit clientIp "register" 20 60)).wp ((contract site g).pact i)
      (fun r t => match r with
        | .ok _ => Idle i t
        | .error f => Ended site i (.error f) t) s := by
  refine wp_look rfl fun ch r s' t hexec hst => ?_
  cases ch with
  | fate fate =>
    simp only [exec] at hexec
    cases hlimit : (RateLimit.enforceRateLimit site.service.settings.isProduction clientIp
        "register" 20 60 fate s.redis).1 with
    | ok a =>
      rw [hlimit] at hexec
      cases hexec
      exact Idle.stable s t hst hs
    | error e =>
      rw [hlimit] at hexec
      cases hexec
      refine ⟨fun _ h => (by cases h), fun h => ?_, fun f hf => ?_⟩
      · rcases enforceRateLimit_error hlimit with rfl | rfl <;> simp [emailTaken] at h
      · cases hf
        rcases enforceRateLimit_error hlimit with rfl | rfl <;> simp [hcall, Call.mayRaise]
  | done | refused | text | uuid | lost => cases hexec

/-- `except IntegrityError`: the exception becomes the answer. -/
theorem wp_integrityError (htaken : Taken site i s) :
    Prog.wp ((contract site g).pact i) (do
        await .rollback
        (Concurrent.Prog.raise emailTaken : Prog Unit))
      (fun r t => (r = .error emailTaken ∧ Taken site i t) ∨ ∃ e, r = .error (.exc e)) s := by
  refine Prog.wp_seq (L := fun r t => (r = .ok () ∧ Taken site i t) ∨ ∃ e, r = .error (.exc e))
    (wp_await (fun _ _ h => (by cases h)) fun ch r s' t hexec hst => ?_) (fun f t hf => ?_)
    fun _ t ht => ?_
  · cases ch with
    | done =>
      cases hexec
      exact Or.inl ⟨rfl, Taken.stable _ t hst htaken⟩
    | refused e =>
      cases hexec
      exact Or.inr ⟨e, rfl⟩
    | fate | text | uuid | lost => cases hexec
  · obtain ⟨h, -⟩ | ⟨e, he⟩ := hf
    · cases h
    · cases he
      exact Or.inr ⟨e, rfl⟩
  · obtain ⟨-, ht⟩ | ⟨e, he⟩ := ht
    · exact Or.inl ⟨rfl, ht⟩
    · cases he

theorem wp_register {clientIp : Text} (hcall : site.calls i = .register payload clientIp)
    (hs : Idle i s) :
    (register payload clientIp).wp ((contract site g).pact i) (Ended site i) s := by
  have hp : site.payload i = some payload := by rw [Site.payload, hcall]
  have htaken : (site.calls i).mayRaise emailTaken = true := by
    simp [hcall, Call.mayRaise, emailTaken]
  refine Prog.wp_seq (wp_enforceRateLimit hcall hs) (fun _ _ hf => hf)
    fun _ t ht => ?_
  refine Prog.wp_seq (wp_selectByEmail hp ht) (fun _ _ hf => .of_exc hf) fun existing t ht => ?_
  show Prog.wp _ (if _ then _ else _) _ _
  split
  next hsome => exact .taken_of (ht.2 hsome) htaken
  next =>
    refine Prog.wp_seq (wp_hashPassword ht.1) (fun _ _ hf => .of_exc hf) fun hashed t ht => ?_
    refine Prog.wp_seq (L := fun r t => match r with
        | .ok _ => Mine site i t ∧ t.users.pending i = []
        | .error f => Ended site i (.error f) t) ?_ (fun _ _ hf => hf)
      fun _ t ht => wp_refresh hp ht.1 ht.2
    refine Prog.wp_catch (wp_addUser ht.1 hp ht.2 (by rw [hcall]; rfl)) (fun _ _ h => h)
      (fun e t he hf => ?_) fun e t he hf => ?_
    · obtain ⟨-, ht⟩ | ⟨e', rfl⟩ := hf
      · refine Prog.wp_mono (fun r t hr => ?_) (wp_integrityError ht)
        obtain ⟨rfl, ht⟩ | ⟨e, rfl⟩ := hr
        · exact .taken_of ht htaken
        · exact .exc e
      · cases he
    · obtain ⟨he', -⟩ | hf := hf
      · exact absurd he' he
      · exact .of_exc hf

/-- The session is closed after the route, and what was committed stays. -/
theorem wp_closed {p : Prog α} {Q : Except Fault α → World → Prop}
    (hQ : ∀ r s t, Q r s → Grows s t → Q r t) (hp : p.wp ((contract site g).pact i) Q s) :
    (Concurrent.Prog.finally_ p (await .closeSession)).wp ((contract site g).pact i) Q s := by
  refine Prog.wp_finally (Prog.wp_mono (fun r t ht => ?_) hp)
  refine wp_await (fun _ _ h => (by cases h)) fun ch r' s' u hexec hst => ?_
  cases ch with
  | done =>
    cases hexec
    exact hQ r t u ht hst.grows
  | refused | fate | text | uuid | lost => cases hexec

theorem wp_inSession {route : Prog Reply} (hs : Idle i s)
    (h : ∀ t, Idle i t → route.wp ((contract site g).pact i) (Ended site i) t) :
    (inSession route).wp ((contract site g).pact i) (Ended site i) s := by
  refine Prog.wp_seq (L := Ok fun _ => Idle i) (wp_look rfl fun ch r s' t hexec hst => ?_)
    (fun _ _ hf => .of_exc hf) fun _ t ht => wp_closed (fun _ _ _ => Ended.mono) (h t ht)
  cases ch with
  | done =>
    cases hexec
    exact Idle.stable s t hst hs
  | refused | fate | text | uuid | lost => cases hexec

/-- How `create_admin` ends: what `main` reports as a mistake of the operator apart, an
integrity error is the only trouble that the accounts make. -/
def Managed (site : Site) (i : Thread) : Except Fault Unit → World → Prop
  | .ok _, t => Mine site i t
  | .error f, t => (f = .integrityError ∧ Taken site i t) ∨ f.isValueError = true ∨
      ∃ e, f = .exc e

theorem Managed.mono {r : Except Fault Unit} (h : Managed site i r s) (hst : Grows s t) :
    Managed site i r t := by
  cases r with
  | ok _ =>
    obtain ⟨p, v, hp, hv, hc⟩ := h
    exact ⟨p, v, hp, hst p.email v hv, hc⟩
  | error f =>
    refine Or.imp_left (fun ⟨hf, p, v, hp, hv, hc⟩ => ?_) h
    exact ⟨hf, p, v, hp, hst p.email v hv, hc⟩

theorem wp_addAdmin (hp : site.payload i = some payload) (hs : Idle i s)
    (hcall : (site.calls i).isRegister = false) :
    (addAdmin payload).wp ((contract site g).pact i) (Managed site i) s := by
  refine Prog.wp_seq (wp_selectByEmail hp hs) (fun _ _ hf => Or.inr (Or.inr hf)) fun _ t ht => ?_
  show Prog.wp _ (if _ then _ else _) _ _
  split
  next => exact Or.inr (Or.inl rfl)
  next =>
    refine Prog.wp_seq (wp_hashPassword ht.1) (fun _ _ hf => Or.inr (Or.inr hf)) fun _ t ht => ?_
    refine Prog.wp_mono (fun r t hr => ?_) (wp_addUser ht.1 hp ht.2 (by rw [hcall]; rfl))
    cases r with
    | ok _ => exact hr.1
    | error f => exact Or.imp_right Or.inr hr

theorem wp_createAdmin {email password again : Text}
    (hcall : site.calls i = .createAdmin email password again) (hs : Idle i s) :
    (createAdmin site.emailStr email password).wp ((contract site g).pact i)
      (Managed site i) s := by
  have hp : site.payload i = RegisterRequest.validate site.emailStr email password := by
    rw [Site.payload, hcall]
  rw [createAdmin, ← hp]
  cases hpayload : site.payload i with
  | none => exact Or.inr (Or.inl rfl)
  | some payload =>
    refine Prog.wp_finally (Prog.wp_mono (Q := Managed site i) (fun r t ht => ?_) ?_)
    · refine wp_look rfl fun ch r' s' u hexec hst => ?_
      cases ch with
      | done =>
        cases hexec
        exact ht.mono hst.grows
      | refused e =>
        cases hexec
        exact Or.inr (Or.inr ⟨e, rfl⟩)
      | fate | text | uuid | lost => cases hexec
    · refine Prog.wp_seq (L := Ok fun _ => Idle i) (wp_look rfl fun ch r s' t hexec hst => ?_)
        (fun _ _ hf => Or.inr (Or.inr hf)) fun _ t ht =>
          wp_closed (fun _ _ _ => Managed.mono) (wp_addAdmin hpayload ht (by rw [hcall]; rfl))
      cases ch with
      | done =>
        cases hexec
        exact Idle.stable s t hst hs
      | refused | fate | text | uuid | lost => cases hexec

theorem wp_manage {email password again : Text}
    (hcall : site.calls i = .createAdmin email password again) (hs : Idle i s) :
    (manage site.emailStr email password again).wp ((contract site g).pact i) (Ended site i) s := by
  have hexit : ∀ text t, Ended site i (.error (.systemExit text)) t := fun text t =>
    ⟨fun _ h => (by cases h), fun h => (by rcases h with h | h <;> cases h),
      fun f hf => by cases hf; rw [hcall]; rfl⟩
  rw [manage]
  split
  next => exact hexit _ s
  next =>
    refine Prog.wp_seq (L := fun r t => match r with
        | .ok _ => Mine site i t
        | .error f => Ended site i (.error f) t) ?_ (fun _ _ hf => hf) fun _ t ht => ?_
    · refine Prog.wp_catch (wp_createAdmin hcall hs) (fun _ _ h => h) (fun _ t _ _ => hexit _ t)
        fun e t he hf => ?_
      obtain ⟨rfl, htaken⟩ | hvalue | hf := hf
      · exact .taken_of htaken (by rw [hcall]; rfl)
      · exact absurd hvalue he
      · exact .of_exc hf
    · refine ⟨fun reply hreply => ?_, fun h => (by rcases h with h | h <;> cases h),
        fun _ h => (by cases h)⟩
      cases hreply
      exact ⟨ht, fun u hu => (by cases hu)⟩

theorem wp_serve (hs : Idle i s) :
    (serve site (site.calls i)).wp ((contract site g).pact i) (Ended site i) s := by
  cases hcall : site.calls i with
  | register payload clientIp => exact wp_inSession hs fun _ ht => wp_register hcall ht
  | createAdminUser payload => exact wp_inSession hs fun _ ht => wp_createAdminUser hcall ht
  | createAdmin email password again => exact wp_manage hcall hs

end Routes

/-! ## All runs -/

/-- Accounts that nobody here has made, and no open transaction. -/
structure World.Fresh (s : World) : Prop where
  pending : ∀ i, s.users.pending i = []
  foreign : ∀ k v, s.users.get? k = some v → v.creator = none
  email : ∀ k v, s.users.get? k = some v → v.user.email = k

theorem World.Fresh.shaped {s : World} (hs : s.Fresh) : Shaped s := by
  have hnone : ∀ i k v, (k, v) ∉ s.users.pending i := by
    intro i k v hv
    rw [hs.pending] at hv
    cases hv
  exact ⟨fun i k v hv => absurd hv (hnone i k v), fun i k v hv => absurd hv (hnone i k v),
    fun i k v hv => absurd hv (hnone i k v)⟩

theorem World.Fresh.sound {site : Site} {s : World} (hs : s.Fresh) : Sound site s where
  toShaped := hs.shaped
  drafted i k v hv := by
    rw [hs.pending] at hv
    cases hv
  made i k v hv hi := by
    rw [hs.foreign k v hv] at hi
    cases hi

theorem World.Fresh.idle {s : World} (hs : s.Fresh) (i : Thread) : Idle i s :=
  ⟨hs.pending i, fun k v hv => by rw [hs.foreign k v hv]; exact Option.some_ne_none i ∘ Eq.symm⟩

/-- In every reachable state the invariant holds, and a call that has ended has left
behind what its outcome says. -/
theorem reach_sound {site : Site} {s₀ : World} (h₀ : s₀.Fresh)
    {g : Guard Thread Cmd World Choice Time} {q : State}
    (hq : (machine site).Reach g ((machine site).start s₀) q) :
    Sound site q.state ∧ ∀ i r, q.prog i = some (Prog.ofExcept r) → Ended site i r q.state := by
  have hboot : ∀ i, (contract site g).Kept i s₀ ((machine site).boot i) :=
    fun i t _ hst => wp_serve (Idle.stable s₀ t hst (h₀.idle i))
  obtain ⟨hsound, hkept⟩ :=
    (contract site g).sound h₀.sound hboot (fun _ _ _ _ h => (by cases h)) hq
  refine ⟨hsound, fun i r hr => ?_⟩
  have hwp := hkept i _ hr q.state hsound (Rely.refl i q.state)
  cases r with
  | ok a => exact hwp
  | error f => exact hwp

/-- An account is an old one, or one that a call was to make. -/
theorem rows_of_reach {site : Site} {s₀ : World} (h₀ : s₀.Fresh)
    {g : Guard Thread Cmd World Choice Time} {q : State}
    (hq : (machine site).Reach g ((machine site).start s₀) q) {k : Text} {v : Row}
    (hv : q.state.users.get? k = some v) :
    s₀.users.get? k = some v ∨ ∃ i, v.creator = some i ∧ Makes site i k v.user := by
  have hold : Shaped q.state ∧ ∀ k v, q.state.users.get? k = some v →
      s₀.users.get? k = some v ∨ ∃ i, v.creator = some i := by
    refine hq.state_invariant (J := fun s => Shaped s ∧ ∀ k v, s.users.get? k = some v →
      s₀.users.get? k = some v ∨ ∃ i, v.creator = some i) (fun i c ch s r s' _ hs h => ?_)
      (fun i s _ hs => ⟨(hs.1.rollback i).1, hs.2⟩) (fun d s s' _ hs h => ?_)
      ⟨h₀.shaped, fun _ _ hv => Or.inl hv⟩
    · refine ⟨(hs.1.exec h).1, fun k v hv => ?_⟩
      exact (creator_of_exec hs.1 h hv).elim (hs.2 k v) fun hc => Or.inr ⟨i, hc⟩
    · cases h
      exact ⟨hs.1.elsewhere _, hs.2⟩
  refine (hold.2 k v hv).imp id fun ⟨i, hi⟩ => ⟨i, hi, ?_⟩
  exact (reach_sound h₀ hq).1.made i k v hv hi

/-- However the three paths interleave, crash and fail: accounts stay as they were committed
and are made by the calls, an administrator never by registration; a call that succeeds has
made the account of its email, which it shows, and is the only one with this email that
does; a call that finds the email taken is right; and registration never ends in an
integrity error. -/
theorem accounts_runs (site : Site) (s₀ : World) (h₀ : s₀.Fresh) (p q : State)
    (hp : (machine site).Reach Guard.any ((machine site).start s₀) p)
    (hq : (machine site).Reach Guard.any p q) :
    (∀ k v, p.state.users.get? k = some v → q.state.users.get? k = some v) ∧
    (∀ k v, q.state.users.get? k = some v →
      s₀.users.get? k = some v ∨ ∃ i, v.creator = some i ∧ Makes site i k v.user) ∧
    (∀ i reply, q.prog i = some (.ret reply) → Mine site i q.state ∧ ∀ u, reply = .created u →
      ∃ v, q.state.users.get? u.email = some v ∧ userOut v.user = .created u) ∧
    (∀ i j r r' x y, q.prog i = some (.ret r) → q.prog j = some (.ret r') →
      site.payload i = some x → site.payload j = some y → x.email = y.email → i = j) ∧
    (∀ i, q.prog i = some (.raise emailTaken) ∨ q.prog i = some (.raise .integrityError) →
      Taken site i q.state) ∧
    ∀ i f, q.prog i = some (.raise f) → (site.calls i).mayRaise f = true := by
  have hreach := hp.trans hq
  obtain ⟨hsound, hended⟩ := reach_sound h₀ hreach
  have hmine : ∀ i r, q.prog i = some (.ret r) → ∃ x v, site.payload i = some x ∧
      q.state.users.get? x.email = some v ∧ v.creator = some i :=
    fun i r hr => ((hended i (.ok r) hr).made r rfl).1
  refine ⟨grows_of_reach hq (reach_sound h₀ hp).1.toShaped,
    fun k v hv => rows_of_reach h₀ hreach hv, fun i reply hr => ?_,
    fun i j r r' x y hi hj hx hy hxy => ?_, fun i hi => ?_,
    fun i f hf => (hended i (.error f) hf).raised f rfl⟩
  · refine ⟨hmine i reply hr, fun u hu => ?_⟩
    obtain ⟨x, v, hx, hv, hout⟩ := ((hended i (.ok reply) hr).made reply rfl).2 u hu
    have hemail : u.email = x.email := by
      obtain ⟨x', v', hx', hv', hc⟩ := hmine i reply hr
      cases hx.symm.trans hx'
      cases hv.symm.trans hv'
      rw [← (hsound.made i x.email v hv hc).email]
      cases hout
      rfl
    exact ⟨v, hemail ▸ hv, hout⟩
  · obtain ⟨x', v, hx', hv, hc⟩ := hmine i r hi
    obtain ⟨y', w, hy', hw, hc'⟩ := hmine j r' hj
    cases hx.symm.trans hx'
    cases hy.symm.trans hy'
    rw [hxy, hw] at hv
    cases hv
    exact Option.some.inj (hc.symm.trans hc')
  · rcases hi with hi | hi
    · exact (hended i (.error emailTaken) hi).taken (Or.inl rfl)
    · exact (hended i (.error .integrityError) hi).taken (Or.inr rfl)

/-! ## Three calls for one email -/

section Mock

def mockPayload : RegisterRequest := ⟨"a@b.c", "password", by decide, by decide⟩

/-- Two registrations and an administrative route with one email, and the command with
another. -/
def mockSite : Site where
  service := ⟨{}, ⟨fun _ => "00", fun p h => h == 'h' :: p, fun c => c.sub⟩, fun _ => .logout []⟩
  emailStr := some
  calls
    | 0 | 1 => .register mockPayload "::1"
    | 2 => .createAdminUser mockPayload
    | _ => .createAdmin "d@b.c" "password" "password"

def mockActs (i : Thread) (cs : List Choice) : List (Label Thread Choice Time) :=
  cs.map fun c => .act i c

/-- The first three find the email free, and then their rows are inserted in this order. -/
def mockRun : List (Label Thread Choice Time) :=
  mockActs 0 [.done, .fate .answered, .done, .text "hpassword"] ++
    mockActs 1 [.done, .fate .answered, .done, .text "hpassword"] ++
    mockActs 2 [.done, .done, .text "hpassword"] ++
    mockActs 0 [.uuid "00", .done, .done, .done] ++ mockActs 1 [.uuid "11", .done, .done] ++
    mockActs 2 [.uuid "22", .done]

def mockRun' : List (Label Thread Choice Time) :=
  mockActs 3 [.done, .done, .text "hpassword", .uuid "33", .done, .done, .done]

def outcome (q : State) (i : Thread) : Option (Except Fault Reply) :=
  match q.prog i with
  | some (.ret a) => some (.ok a)
  | some (.raise e) => some (.error e)
  | _ => none

theorem prog_of_outcome {q : State} {i : Thread} {r : Except Fault Reply}
    (h : outcome q i = some r) : q.prog i = some (Prog.ofExcept r) := by
  unfold outcome at h
  split at h
  next a ha =>
    cases h
    exact ha
  next e he =>
    cases h
    exact he
  next => cases h

theorem fresh_empty : World.Fresh {} :=
  ⟨fun _ => rfl, fun _ _ h => (by cases h), fun _ _ h => (by cases h)⟩

/-- One of the three has made the account, and the others find it taken. -/
theorem accounts_runs_mock : ∃ p q,
    (machine mockSite).Reach Guard.any ((machine mockSite).start {}) p ∧
    (machine mockSite).Reach Guard.any p q ∧
    Mine mockSite 0 q.state ∧ Taken mockSite 1 q.state ∧ Taken mockSite 2 q.state := by
  have hrun : (((machine mockSite).run ((machine mockSite).start {}) mockRun).bind fun p =>
      ((machine mockSite).run p mockRun').map fun q =>
        (outcome q 0, outcome q 1, outcome q 2)) =
      some (some (.ok (.created ⟨"00", "a@b.c", true, false⟩)), some (.error emailTaken),
        some (.error .integrityError)) := by decide +kernel
  obtain ⟨p, hp, hrun⟩ := Option.bind_eq_some_iff.mp hrun
  obtain ⟨q, hq, hout⟩ := Option.map_eq_some_iff.mp hrun
  obtain ⟨h0, hout⟩ := Prod.mk.inj hout
  obtain ⟨h1, h2⟩ := Prod.mk.inj hout
  have hreach := Machine.reach_of_run hp
  have hreach' := Machine.reach_of_run hq
  obtain ⟨-, -, hmine, -, htaken, -⟩ := accounts_runs mockSite {} fresh_empty p q hreach hreach'
  exact ⟨p, q, hreach, hreach', (hmine 0 _ (prog_of_outcome h0)).1,
    htaken 1 (Or.inl (prog_of_outcome h1)), htaken 2 (Or.inr (prog_of_outcome h2))⟩

end Mock

/-! ## Logging in -/

/-- The accounts as the login route finds them. -/
def World.accounts (s : World) : List User := s.users.rows.items.map fun e => e.2.user

/-- What the database and the libraries may answer to the commands of the login route. -/
def Answers (accounts : List User) : (c : Auth.Cmd) → Except Auth.Fault (Auth.Ans c) → Prop
  | _, .error f => ∃ e, f = .exc e
  | .selectUserByEmail email, .ok user => user = accounts.find? fun u => decide (u.email = email)
  | _, .ok _ => True

theorem answers_exec {i : Thread} {c : Auth.Cmd} {ch : Auth.Choice} {w w' : Auth.World}
    {r : Except Auth.Fault (Auth.Ans c)} (h : Auth.exec i c ch w = some (r, w')) :
    Answers w.users c r := by
  cases r with
  | error f =>
    show ∃ e, f = .exc e
    cases c <;> cases ch <;> simp only [Auth.exec, Auth.Cmd.waits] at h <;>
      grind [Option.map_eq_some_iff]
  | ok a =>
    cases c with
    | selectUserByEmail email =>
      cases ch <;> simp only [Auth.exec, Auth.Cmd.waits] at h <;> grind [Answers]
    | _ => trivial

section Login

variable {svc : Service} {accounts : List User} {user : User}

/-- The exceptions of a login that do not speak of the credentials. -/
def Elsewhere (svc : Service) (f : Auth.Fault) : Prop :=
  f = .http 503 "rate limiter unavailable" [] ∨
  f = .http 429 "rate limit exceeded"
    [("Retry-After", (toString svc.settings.loginRateWindowSeconds).toList)] ∨ ∃ e, f = .exc e

/-- A command that goes wrong stops the login for reasons of its own. -/
theorem sure_await {c : Auth.Cmd} {Q : Except Auth.Fault (Auth.Ans c) → Prop}
    (herror : ∀ e, Q (.error (.exc e))) (hok : ∀ a, Answers accounts c (.ok a) → Q (.ok a)) :
    Prog.Sure (Answers accounts) (Auth.await c) Q := by
  refine Prog.sure_issue.mpr fun r hr => ?_
  cases r with
  | ok a => exact hok a hr
  | error f =>
    obtain ⟨e, rfl⟩ : ∃ e, f = .exc e := hr
    exact herror e

theorem sure_enforceRateLimit (clientIp : Text) :
    Prog.Sure (Answers accounts) (Auth.enforceRateLimit svc clientIp "login"
      svc.settings.loginRateLimit svc.settings.loginRateWindowSeconds)
      (fun r => ∀ f, r = .error f → Elsewhere svc f) := by
  refine Prog.sure_bind.mpr (Prog.Sure.mono (Q := fun r => ∀ f, r = .error f → Elsewhere svc f)
    (fun r hr => ?_) ?_)
  · cases r with
    | error f =>
      intro f' hf
      cases hf
      exact hr f rfl
    | ok allowed =>
      show Prog.Sure _ (if allowed = true then _ else _) _
      split
      next => exact fun _ h => (by cases h)
      next =>
        intro f hf
        cases hf
        exact Or.inr (Or.inl rfl)
  · refine Prog.sure_except.mpr (Prog.sure_bind.mpr (sure_await (fun e => ?_) fun _ _ _ h => ?_))
    · show Prog.Sure _ (Option.getD (if _ then _ else _) _) _
      split
      next =>
        show Prog.Sure _ (if _ then _ else _) _
        split
        next =>
          intro f hf
          cases hf
          exact Or.inl rfl
        next => exact fun _ h => (by cases h)
      next =>
        intro f hf
        cases hf
        exact Or.inr (Or.inr ⟨e, rfl⟩)
    · cases h

theorem elsewhere_exc (e : Exc) : Elsewhere svc (.exc e) := Or.inr (Or.inr ⟨e, rfl⟩)

/-- The access token speaks of the account. -/
theorem sure_issueTokens :
    Prog.Sure (Answers accounts) (issueTokens svc user) fun r => match r with
      | .error f => Elsewhere svc f
      | .ok x => ∃ iat exp, x.1.accessToken =
          svc.lib.jwtEncode ⟨user.id, iat, exp, user.isAdmin⟩ := by
  refine Prog.sure_bind.mpr (Prog.sure_bind.mpr (sure_await elsewhere_exc fun raw _ => ?_))
  refine Prog.sure_bind.mpr (Prog.sure_bind.mpr (sure_await elsewhere_exc fun expiresAt _ => ?_))
  refine Prog.sure_bind.mpr (Prog.sure_bind.mpr (sure_await elsewhere_exc fun issued _ => ?_))
  exact ⟨issued, _, rfl⟩

/-- An active account logs in with its password. -/
theorem sure_login {email password : Text} (clientIp : Text)
    (hfind : (accounts.find? fun u => decide (u.email = email)) = some user)
    (hverify : verifyPassword svc password user.hashedPassword = true)
    (hactive : user.isActive = true) :
    Prog.Sure (Answers accounts) (login svc email password clientIp) fun r => match r with
      | .error f => Elsewhere svc f
      | .ok reply => ∃ t iat exp, reply = .tokens t ∧
          t.accessToken = svc.lib.jwtEncode ⟨user.id, iat, exp, user.isAdmin⟩ := by
  refine Prog.sure_bind.mpr ((sure_enforceRateLimit clientIp).mono fun r hr => ?_)
  cases r with
  | error f => exact hr f rfl
  | ok _ =>
    refine Prog.sure_bind.mpr (sure_await elsewhere_exc fun found hfound => ?_)
    rw [show found = some user from Eq.trans hfound hfind]
    refine Prog.sure_bind.mpr (sure_await elsewhere_exc fun _ _ => ?_)
    simp only [hverify, loginUser, hactive, if_true]
    refine Prog.sure_bind.mpr (sure_issueTokens.mono fun r hr => ?_)
    cases r with
    | error f => exact hr
    | ok x =>
      obtain ⟨iat, exp, htoken⟩ := hr
      refine Prog.sure_bind.mpr (sure_await elsewhere_exc fun _ _ => ?_)
      refine Prog.sure_bind.mpr (sure_await elsewhere_exc fun _ _ => ?_)
      exact ⟨x.1, iat, exp, rfl, htoken⟩

/-- Only one row has the email of an account. -/
theorem find_accounts {s : World} (hemail : ∀ k v, s.users.get? k = some v → v.user.email = k)
    {k : Text} {v : Row} (hv : s.users.get? k = some v) :
    (s.accounts.find? fun u => decide (u.email = k)) = some v.user := by
  have hmem : v.user ∈ s.accounts :=
    List.mem_map.mpr ⟨(k, v), Dict.mem_items_iff.mpr hv, rfl⟩
  have hsome : (s.accounts.find? fun u => decide (u.email = k)).isSome := by
    rw [List.find?_isSome]
    exact ⟨v.user, hmem, decide_eq_true (hemail k v hv)⟩
  obtain ⟨u, hu⟩ := Option.isSome_iff_exists.mp hsome
  obtain ⟨⟨k', w⟩, hw, rfl⟩ := List.mem_map.mp (List.mem_of_find?_eq_some hu)
  have hw' : s.users.get? k' = some w := Dict.mem_items_iff.mp hw
  have hkey : w.user.email = k :=
    of_decide_eq_true (List.find?_some (p := fun u : User => decide (u.email = k)) hu)
  rw [hemail k' w hw'] at hkey
  rw [hkey, hv] at hw'
  cases hw'
  exact hu

/-- Whoever has made an account in any run can log in with its password: a login against the
accounts of the state reached is not turned down for its credentials, and its access token
is that of the account, of an administrator only if the account was not registered. -/
theorem created_logs_in (site : Site) (s₀ : World) (h₀ : s₀.Fresh) (q : State)
    (hq : (machine site).Reach Guard.any ((machine site).start s₀) q) (i : Thread) (reply : Reply)
    (hi : q.prog i = some (.ret reply)) (payload : RegisterRequest)
    (hp : site.payload i = some payload) (clientIp : Text) :
    Prog.Sure (Answers q.state.accounts)
      (login site.service payload.email payload.password clientIp) fun r => match r with
        | .error f => Elsewhere site.service f
        | .ok reply => ∃ t v iat exp, reply = .tokens t ∧
            q.state.users.get? payload.email = some v ∧
            t.accessToken = site.service.lib.jwtEncode
              ⟨v.user.id, iat, exp, !(site.calls i).isRegister⟩ := by
  obtain ⟨hsound, hended⟩ := reach_sound h₀ hq
  have hemail : ∀ k v, q.state.users.get? k = some v → v.user.email = k := by
    intro k v hv
    obtain hold | ⟨j, -, hmakes⟩ := rows_of_reach h₀ hq hv
    · exact h₀.email k v hold
    · exact hmakes.email
  obtain ⟨⟨x, v, hx, hv, hc⟩, -⟩ := (hended i (.ok reply) hi).made reply rfl
  cases hp.symm.trans hx
  have hmakes := hsound.made i payload.email v hv hc
  obtain ⟨y, hy, -, hverify⟩ := hmakes.payload
  cases hp.symm.trans hy
  refine (sure_login clientIp (find_accounts hemail hv) hverify hmakes.active).mono fun r hr => ?_
  cases r with
  | error f => exact hr
  | ok reply =>
    obtain ⟨t, iat, exp, ht, htoken⟩ := hr
    exact ⟨t, v, iat, exp, ht, hv, hmakes.admin ▸ htoken⟩

/-- The account of the first call of the run above logs in. -/
theorem created_logs_in_mock : ∃ q : State, q.prog 0 =
    some (.ret (.created ⟨"00", "a@b.c", true, false⟩)) ∧
    Prog.Sure (Answers q.state.accounts) (login mockSite.service "a@b.c" "password" "::1")
      fun r => ∀ f, r = .error f → Elsewhere mockSite.service f := by
  have hrun : ((machine mockSite).run ((machine mockSite).start {}) mockRun).map (outcome · 0) =
      some (some (.ok (.created ⟨"00", "a@b.c", true, false⟩))) := by decide +kernel
  obtain ⟨q, hq, hout⟩ := Option.map_eq_some_iff.mp hrun
  have h0 := prog_of_outcome hout
  refine ⟨q, h0, (created_logs_in mockSite {} fresh_empty q (Machine.reach_of_run hq) 0 _ h0
    mockPayload rfl "::1").mono fun r hr f hf => ?_⟩
  cases hf
  exact hr

end Login

end Auth.Accounts
end AdaptiveGateway
