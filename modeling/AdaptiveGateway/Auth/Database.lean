/-
The database as the authentication routes see it.

Each statement that waits for the server is a command, and so is each row that an
`UPDATE` comes to: the statement takes its snapshot first, and then visits the rows
of the snapshot one by one, waiting for the lock of each and reading the row again
once it has it.  `SELECT ... FOR UPDATE` waits in the same way and answers with the
latest committed version.  A command whose lock is not free is not enabled.

Any command may fail without effect, and a commit may also take effect and be
reported as failed.  The order in which an `UPDATE` visits its rows is open.

`issuer`, `began`, `sweep` and `swept` are history: the call that inserted a row,
the rows that were committed when a call began, and the snapshots of the open and
of the committed `UPDATE`s over all rows of a user.  No command reads them.
-/
import AdaptiveGateway.Concurrent.Pool
import AdaptiveGateway.Concurrent.Table
import AdaptiveGateway.Config
import AdaptiveGateway.Exc

namespace AdaptiveGateway
namespace Auth

open Codec Concurrent

/-- `token_hash`. -/
abbrev Hash := Text

/-- A UUID, written out. -/
abbrev UserId := Text

/-- Each request is handled by a thread of its own. -/
abbrev Thread := Nat

structure User where
  id : UserId
  email : Text
  hashedPassword : Text
  isActive : Bool := true
  isAdmin : Bool := false

/-- A row of `refresh_tokens`, without its key. -/
structure Row where
  userId : UserId
  expiresAt : Time
  revoked : Bool := false
  issuer : Thread
deriving DecidableEq

def Row.revoke (r : Row) : Row := { r with revoked := true }

/-- The columns of a `RefreshToken` that is added to a session. -/
structure NewToken where
  tokenHash : Hash
  userId : UserId
  expiresAt : Time

/-- The `WHERE` of an `UPDATE`. -/
inductive Where where
  | tokenHash (h : Hash)
  | userId (u : UserId)

def Where.holds : Where → Hash × Row → Bool
  | .tokenHash h, e => decide (e.1 = h)
  | .userId u, e => decide (e.2.userId = u)

inductive Fault where
  /-- `HTTPException`. -/
  | http (status : Nat) (detail : Text) (headers : List (Text × Text))
  | exc (e : Exc)
deriving DecidableEq

/-! ## Commands -/

inductive Cmd where
  /-- `get_db` opens the session: the call begins. -/
  | openSession
  /-- The session is closed, and what it has not committed is rolled back. -/
  | closeSession
  | now
  /-- `secrets.token_urlsafe(48)`. -/
  | tokenUrlsafe
  /-- The fixed-window counter of the rate limiter. -/
  | incrWindow (key : Text) (window : Nat)
  | runInThreadpool
  | selectUserByEmail (email : Text)
  | selectUser (id : UserId)
  | selectForUpdate (h : Hash)
  /-- The snapshot of `UPDATE refresh_tokens SET revoked = true WHERE ...`. -/
  | scan (w : Where)
  /-- The `UPDATE` comes to a row. -/
  | revokeRow (h : Hash)
  | insert (token : NewToken)
  | commit

abbrev Ans : Cmd → Type
  | .now => Time
  | .tokenUrlsafe => Text
  | .incrWindow _ _ => Nat
  | .selectUserByEmail _ => Option User
  | .selectUser _ => Option User
  | .selectForUpdate _ => Option Row
  | .scan _ => List Hash
  | _ => Unit

/-- Whether the command waits for another process. -/
def Cmd.waits : Cmd → Bool
  | .openSession | .closeSession | .now | .tokenUrlsafe => false
  | _ => true

inductive Choice where
  | done
  | text (raw : Text)
  | count (n : Nat)
  | order (hs : List Hash)
  /-- The command fails and has done nothing. -/
  | refused (e : Exc)
  /-- The command has taken effect and is reported as failed. -/
  | lost (e : Exc)

/-! ## States -/

/-- A committed `UPDATE` over all rows of a user: the tokens of the user when the
call began, and those in the snapshot of the statement. -/
structure Sweep where
  thread : Thread
  user : UserId
  existing : List Hash
  seen : List Hash
deriving DecidableEq

structure World where
  tokens : Table Thread Hash Row := {}
  users : List User := []
  now : Time := 0
  began : Thread → List (Hash × Row) := fun _ => []
  sweep : Thread → Option (UserId × List Hash) := fun _ => none
  swept : List Sweep := []

namespace World

/-- The tokens of the user that were committed when the call of the thread began. -/
def existing (s : World) (i : Thread) (u : UserId) : List Hash :=
  ((s.began i).filter fun e => decide (e.2.userId = u)).map Prod.fst

def matching (s : World) (w : Where) : List Hash :=
  (s.tokens.rows.items.filter w.holds).map Prod.fst

def openSession (i : Thread) (s : World) : World :=
  { s with began := Function.update s.began i s.tokens.rows.items }

def scanned (i : Thread) (w : Where) (hs : List Hash) (s : World) : World :=
  match w with
  | .tokenHash _ => s
  | .userId u => { s with sweep := Function.update s.sweep i (some (u, hs)) }

def commit (i : Thread) (s : World) : World :=
  { s with
    tokens := s.tokens.commit i
    sweep := Function.update s.sweep i none
    swept := match s.sweep i with
      | some (u, seen) => ⟨i, u, s.existing i u, seen⟩ :: s.swept
      | none => s.swept }

def close (i : Thread) (s : World) : World :=
  { s with
    tokens := s.tokens.rollback i
    sweep := Function.update s.sweep i none }

end World

def exec (i : Thread) : (c : Cmd) → Choice → World → Option (Except Fault (Ans c) × World)
  | .openSession, .done, s => some (.ok (), s.openSession i)
  | .closeSession, .done, s => some (.ok (), s.close i)
  | .now, .done, s => some (.ok s.now, s)
  | .tokenUrlsafe, .text raw, s => some (.ok raw, s)
  | .incrWindow _ _, .count n, s => some (.ok n, s)
  | .runInThreadpool, .done, s => some (.ok (), s)
  | .selectUserByEmail email, .done, s =>
    some (.ok (s.users.find? fun u => decide (u.email = email)), s)
  | .selectUser id, .done, s => some (.ok (s.users.find? fun u => decide (u.id = id)), s)
  | .selectForUpdate h, .done, s =>
    match s.tokens.get? h with
    | none => some (.ok none, s)
    | some row => (s.tokens.lock i h).map fun t => (.ok (some row), { s with tokens := t })
  | .scan w, .order hs, s =>
    if hs.isPerm (s.matching w) then some (.ok hs, s.scanned i w hs) else none
  | .revokeRow h, .done, s =>
    match s.tokens.current i h with
    | none => some (.ok (), s)
    | some row => (s.tokens.write i h row.revoke).map fun t => (.ok (), { s with tokens := t })
  | .insert token, .done, s =>
    match s.tokens.current i token.tokenHash with
    | some _ => some (.error (.exc .dbError), s)
    | none =>
      (s.tokens.write i token.tokenHash
        { userId := token.userId, expiresAt := token.expiresAt, issuer := i }).map
          fun t => (.ok (), { s with tokens := t })
  | .commit, .done, s => some (.ok (), s.commit i)
  | .commit, .lost e, s => some (.error (.exc e), s.commit i)
  | c, .refused e, s => if c.waits then some (.error (.exc e), s) else none
  | _, _, _ => none

theorem exec_refused {i : Thread} {s s' : World} {c : Cmd} {e : Exc} {r : Except Fault (Ans c)}
    (h : exec i c (.refused e) s = some (r, s')) : s' = s ∧ r = .error (.exc e) := by
  cases c <;> simp [exec, Cmd.waits] at h <;> exact ⟨h.2.symm, h.1.symm⟩

/-- Time goes by, and the users change. -/
inductive Event where
  | advance (d : Time)
  | users (us : List User)

def Event.apply : Event → World → World
  | .advance d, s => { s with now := s.now + d }
  | .users us, s => { s with users := us }

end Auth
end AdaptiveGateway
