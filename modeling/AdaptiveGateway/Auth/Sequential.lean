/-
Calls one after another.

Each call runs alone from its first command to its last, so that its locks are free
when it asks for them and nothing changes under it; between two calls time goes by
and the users change.  What a call finds out from elsewhere is drawn beforehand: the
new token, the answer of the rate limiter, and the order in which an `UPDATE` visits
its rows.

`Agrees` ties the table to the history of the answers, and every call keeps it: the
`revoked` column says exactly which tokens the history calls revoked, although three
routes set it for three different reasons.
-/
import AdaptiveGateway.Auth.History
import AdaptiveGateway.Auth.Rotation
import Mathlib.Data.List.Flatten

namespace AdaptiveGateway
namespace Auth

open Codec Concurrent

/-- What a call draws. -/
structure Draws where
  /-- `secrets.token_urlsafe(48)` -/
  raw : Text
  /-- The counter of the rate limiter, unless Redis is down. -/
  count : Option Nat := some 1
  order : List Hash → List Hash := id
  order_perm : ∀ hs, (order hs).Perm hs := by exact fun hs => List.Perm.refl hs

def Draws.choice (d : Draws) (s : World) : Cmd → Choice
  | .tokenUrlsafe => .text d.raw
  | .incrWindow _ _ =>
    match d.count with
    | some n => .count n
    | none => .refused .redisError
  | .scan w => .order (d.order (s.matching w))
  | _ => .done

def Draws.step (d : Draws) (i : Thread) (c : Cmd) (s : World) :
    Option (Except Fault (Ans c) × World) :=
  exec i c (d.choice s c) s

/-- The call from its first command to its last. -/
def perform (svc : Service) (i : Thread) (request : Request) (d : Draws) (s : World) :
    Option (Except Fault Reply × World) :=
  (serve svc request).eval (d.step i) s

inductive Item where
  | call (request : Request) (d : Draws)
  | event (e : Event)

/-- The tables with the calls made so far on record. -/
structure Progress where
  state : World := {}
  history : History := []

def Progress.take (svc : Service) (p : Progress) : Item → Option Progress
  | .call request d =>
    (perform svc p.history.length request d p.state).map fun o =>
      ⟨o.2, ⟨request, o.1, p.state.now, p.state.users⟩ :: p.history⟩
  | .event e => some { p with state := e.apply p.state }

def execute (svc : Service) (items : List Item) : Option Progress :=
  items.foldlM (Progress.take svc) {}

/-! ## A call alone -/

/-- Nobody has locked or written anything. -/
structure Quiet (s : World) : Prop where
  owner : ∀ k, s.tokens.owner k = none
  pending : ∀ i, s.tokens.pending i = []

/-- The only open transaction is that of `i`.  The committed rows are `rows`, and
`own` are the rows as the transaction itself would read them. -/
structure Alone (i : Thread) (s₀ : World) (rows own : Hash → Option Row) (s : World) : Prop where
  rows : ∀ k, s.tokens.get? k = rows k
  own : ∀ k, s.tokens.current i k = own k
  free : ∀ k, s.tokens.free i k = true
  others : ∀ j, j ≠ i → s.tokens.pending j = []
  now : s.now = s₀.now
  users : s.users = s₀.users

/-- The call is over and has left `rows`. -/
structure Rests (s₀ : World) (rows : Hash → Option Row) (s : World) : Prop where
  rows : ∀ k, s.tokens.get? k = rows k
  quiet : Quiet s
  now : s.now = s₀.now
  users : s.users = s₀.users

section Alone

variable {svc : Service} {i : Thread} {s₀ s : World} {rows own : Hash → Option Row} {h : Hash}
  {row : Row}

theorem Quiet.alone (hs : Quiet s) : Alone i s s.tokens.get? s.tokens.get? (s.openSession i) where
  rows _ := rfl
  own k := by
    show (Dict.lookup k (s.tokens.pending i)).or _ = _
    rw [hs.pending i]
    rfl
  free k := by
    show (s.tokens.owner k).all _ = true
    rw [hs.owner k]
    rfl
  others j _ := hs.pending j
  now := rfl
  users := rfl

theorem Alone.close (hs : Alone i s₀ rows own s) : Rests s₀ rows (s.close i) where
  rows k := hs.rows k
  quiet := by
    refine ⟨fun k => ?_, fun j => ?_⟩
    · show (if s.tokens.owner k = some i then none else s.tokens.owner k) = none
      cases hk : s.tokens.owner k with
      | none => simp
      | some j => rw [Table.free_iff.mp (hs.free k) j hk, if_pos rfl]
    · by_cases hj : j = i
      · subst hj
        exact Table.rollback_pending
      · exact (Table.rollback_pending_of_ne hj).trans (hs.others j hj)
  now := hs.now
  users := hs.users

theorem Alone.commit (hs : Alone i s₀ rows own s) : Alone i s₀ own own (s.commit i) where
  rows k := (Table.commit_get? k).trans (hs.own k)
  own k := by
    show (Dict.lookup k ((s.tokens.commit i).pending i)).or ((s.tokens.commit i).get? k) = _
    rw [show (s.tokens.commit i).pending i = [] from Table.rollback_pending, Table.commit_get?]
    exact hs.own k
  free k := by
    refine Table.free_iff.mpr fun j hj => ?_
    have hj' : (if s.tokens.owner k = some i then none else s.tokens.owner k) = some j := hj
    by_cases hi : s.tokens.owner k = some i
    · rw [if_pos hi] at hj'
      cases hj'
    · rw [if_neg hi] at hj'
      exact Table.free_iff.mp (hs.free k) j hj'
  others j hj := (Table.rollback_pending_of_ne hj).trans (hs.others j hj)
  now := hs.now
  users := hs.users

/-- A row is locked without waiting, and nothing else changes. -/
theorem Alone.lock (hs : Alone i s₀ rows own s) (h : Hash) :
    ∃ t, s.tokens.lock i h = some t ∧ Alone i s₀ rows own { s with tokens := t } := by
  refine ⟨_, if_pos (hs.free h), hs.rows, hs.own, fun k => ?_, hs.others, hs.now, hs.users⟩
  refine Table.free_iff.mpr fun j hj => ?_
  by_cases hk : k = h
  · subst hk
    have hown : Function.update s.tokens.owner k (some i) k = some j := hj
    rw [Function.update_self] at hown
    exact (Option.some.inj hown).symm
  · exact Table.free_iff.mp (hs.free k) j ((Function.update_of_ne hk _ _).symm.trans hj)

theorem Alone.write (hs : Alone i s₀ rows own s) (h : Hash) (row : Row) :
    ∃ t, s.tokens.write i h row = some t ∧
      Alone i s₀ rows (Function.update own h (some row)) { s with tokens := t } := by
  obtain ⟨t, ht, hlocked⟩ := hs.lock h
  have hwrite : s.tokens.write i h row =
      some { t with pending := Function.update t.pending i ((h, row) :: t.pending i) } := by
    rw [Table.write, ht]
    rfl
  refine ⟨_, hwrite, hlocked.rows, fun k => ?_, hlocked.free, fun j hj => ?_, hs.now, hs.users⟩
  · have hk : (Dict.lookup k (t.pending i)).or (t.get? k) = own k := hlocked.own k
    show (Dict.lookup k (Function.update t.pending i _ i)).or (t.get? k) = _
    rw [Function.update_self]
    by_cases hkh : k = h
    · simp [Dict.lookup, hkh]
    · rw [Function.update_of_ne hkh, ← hk]
      simp [Dict.lookup, Ne.symm hkh]
  · exact (Function.update_of_ne hj _ _).trans (hlocked.others j hj)

end Alone

/-! ## What the commands do -/

/-- The rows after an `UPDATE`. -/
def revokeIn (w : Where) (rows : Hash → Option Row) (k : Hash) : Option Row :=
  (rows k).map fun r => if w.holds (k, r) then r.revoke else r

section Commands

variable {i : Thread} {d : Draws} {s₀ s : World} {rows own : Hash → Option Row}

theorem selectForUpdate_eq (h : Hash) : d.step i (.selectForUpdate h) s =
    match s.tokens.get? h with
    | none => some (.ok none, s)
    | some row => (s.tokens.lock i h).map fun t => (.ok (some row), { s with tokens := t }) := rfl

theorem revokeRow_eq (h : Hash) : d.step i (.revokeRow h) s =
    match s.tokens.current i h with
    | none => some (.ok (), s)
    | some row =>
      (s.tokens.write i h row.revoke).map fun t => (.ok (), { s with tokens := t }) := rfl

theorem insert_eq (token : NewToken) : d.step i (.insert token) s =
    match s.tokens.current i token.tokenHash with
    | some _ => some (.error (.exc .dbError), s)
    | none =>
      (s.tokens.write i token.tokenHash
        { userId := token.userId, expiresAt := token.expiresAt, issuer := i }).map
          fun t => (.ok (), { s with tokens := t }) := rfl

variable (hs : Alone i s₀ rows own s)
include hs

theorem step_selectForUpdate (h : Hash) :
    ∃ t, d.step i (.selectForUpdate h) s = some (.ok (rows h), t) ∧ Alone i s₀ rows own t := by
  rw [selectForUpdate_eq, hs.rows h]
  cases rows h with
  | none => exact ⟨s, rfl, hs⟩
  | some row =>
    obtain ⟨t, ht, hlocked⟩ := hs.lock h
    refine ⟨{ s with tokens := t }, ?_, hlocked⟩
    show (s.tokens.lock i h).map _ = _
    rw [ht]
    rfl

theorem step_revokeRow (h : Hash) :
    ∃ t, d.step i (.revokeRow h) s = some (.ok (), t) ∧
      Alone i s₀ rows (Function.update own h ((own h).map Row.revoke)) t := by
  rw [revokeRow_eq, hs.own h]
  cases hrow : own h with
  | none =>
    have hsame : Function.update own h (none.map Row.revoke) = own :=
      Function.update_eq_self_iff.mpr hrow.symm
    exact ⟨s, rfl, by rw [hsame]; exact hs⟩
  | some row =>
    obtain ⟨t, ht, hwritten⟩ := hs.write h row.revoke
    refine ⟨{ s with tokens := t }, ?_, hwritten⟩
    show (s.tokens.write i h row.revoke).map _ = _
    rw [ht]
    rfl

theorem step_insert (token : NewToken) (hnew : own token.tokenHash = none) :
    ∃ t, d.step i (.insert token) s = some (.ok (), t) ∧
      Alone i s₀ rows (Function.update own token.tokenHash
        (some { userId := token.userId, expiresAt := token.expiresAt, issuer := i })) t := by
  obtain ⟨t, ht, hwritten⟩ := hs.write token.tokenHash
    { userId := token.userId, expiresAt := token.expiresAt, issuer := i }
  refine ⟨{ s with tokens := t }, ?_, hwritten⟩
  rw [insert_eq, hs.own, hnew]
  show (s.tokens.write i token.tokenHash _).map _ = _
  rw [ht]
  rfl

theorem step_scan (w : Where) :
    ∃ hashes t, d.step i (.scan w) s = some (.ok hashes, t) ∧ Alone i s₀ rows own t ∧
      ∀ k, k ∈ hashes ↔ ∃ r, rows k = some r ∧ w.holds (k, r) = true := by
  have hperm := d.order_perm (s.matching w)
  refine ⟨_, _, if_pos (List.isPerm_iff.mpr hperm), ?_, fun k => ?_⟩
  · cases w with
    | tokenHash h => exact hs
    | userId u => exact ⟨hs.rows, hs.own, hs.free, hs.others, hs.now, hs.users⟩
  · rw [hperm.mem_iff, mem_matching, hs.rows k]

theorem ends_forEach_revokeRow (hashes : List Hash) :
    Prog.Ends (d.step i) (Prog.forEach (fun h => await (.revokeRow h)) hashes)
      (fun r t => r = .ok () ∧
        Alone i s₀ rows (fun k => if k ∈ hashes then (own k).map Row.revoke else own k) t) s := by
  induction hashes generalizing own s with
  | nil =>
    refine ⟨rfl, ?_⟩
    simpa using hs
  | cons h hashes ih =>
    obtain ⟨t, ht, hwritten⟩ := step_revokeRow hs h
    refine Prog.ends_issue_bind ht ((ih hwritten).mono fun r u hu => ⟨hu.1, ?_⟩)
    convert hu.2 using 1
    funext k
    by_cases hk : k = h
    · subst hk
      cases own k <;> simp [Row.revoke]
    · simp [hk]

end Commands

theorem ends_revokeWhere {i : Thread} {d : Draws} {s₀ s : World} {rows : Hash → Option Row}
    (hs : Alone i s₀ rows rows s) (w : Where) :
    Prog.Ends (d.step i) (revokeWhere w)
      (fun r t => r = .ok () ∧ Alone i s₀ rows (revokeIn w rows) t) s := by
  obtain ⟨hashes, t, ht, hscanned, hmem⟩ := step_scan hs w
  refine Prog.ends_issue_bind ht ((ends_forEach_revokeRow hscanned hashes).mono
    fun r u hu => ⟨hu.1, ?_⟩)
  convert hu.2 using 1
  funext k
  simp only [revokeIn, hmem]
  cases rows k with
  | none => simp
  | some row => by_cases hw : w.holds (k, row) = true <;> simp [hw]

/-! ## What the routes do -/

/-- The row of a token that is issued to the user now. -/
def newRow (svc : Service) (i : Thread) (s : World) (u : UserId) : Row where
  userId := u
  expiresAt := s.now + seconds (svc.settings.refreshTokenTtlDays * 86400)
  issuer := i

/-- The stored token passes the checks of `refresh`. -/
def Row.Usable (row : Row) (s : World) : Prop :=
  row.revoked = false ∧ ¬row.expiresAt < s.now ∧ active s.users row.userId

/-- The answer to a request, and the rows that are committed when it is given. -/
inductive Effect (svc : Service) (i : Thread) (raw : Text) (s : World) :
    Request → Except Fault Reply → (Hash → Option Row) → Prop where
  | login {email password clientIp : Text} {user : User} {t : TokenResponse} :
      s.users.find? (fun u => decide (u.email = email)) = some user → t.refreshToken = raw →
      Effect svc i raw s (.login email password clientIp) (.ok (.tokens t))
        (Function.update s.tokens.get? (hashToken svc raw) (some (newRow svc i s user.id)))
  | loginFailed {email password clientIp : Text} {e : Fault} :
      Effect svc i raw s (.login email password clientIp) (.error e) s.tokens.get?
  | rotated {x : Text} {row : Row} {t : TokenResponse} :
      s.tokens.get? (hashToken svc x) = some row → row.Usable s → t.refreshToken = raw →
      Effect svc i raw s (.refresh x) (.ok (.tokens t))
        (Function.update (Function.update s.tokens.get? (hashToken svc x) (some row.revoke))
          (hashToken svc raw) (some (newRow svc i s row.userId)))
  | reused {x : Text} {row : Row} {e : Fault} :
      s.tokens.get? (hashToken svc x) = some row → row.revoked = true →
      Effect svc i raw s (.refresh x) (.error e) (revokeIn (.userId row.userId) s.tokens.get?)
  | refreshFailed {x : Text} {e : Fault} :
      (∀ row, s.tokens.get? (hashToken svc x) = some row → row.revoked = false ∧ ¬row.Usable s) →
      Effect svc i raw s (.refresh x) (.error e) s.tokens.get?
  | loggedOut {x : Text} :
      Effect svc i raw s (.logout x) (.ok (.message "logged out"))
        (revokeIn (.tokenHash (hashToken svc x)) s.tokens.get?)

/-- The handler has come to an end, with the effect of its request committed. -/
def Served (svc : Service) (i : Thread) (raw : Text) (s₀ : World) (request : Request)
    (r : Except Fault Reply) (t : World) : Prop :=
  ∃ rows own, Alone i s₀ rows own t ∧ Effect svc i raw s₀ request r rows

section Routes

variable {svc : Service} {i : Thread} {d : Draws} {s₀ s : World} {rows own : Hash → Option Row}

theorem ends_issueTokens (hs : Alone i s₀ rows own s) (user : User) :
    Prog.Ends (d.step i) (issueTokens svc user) (fun r t => t = s ∧ ∃ tokens : TokenResponse,
      tokens.refreshToken = d.raw ∧ r = .ok (tokens, ⟨hashToken svc d.raw, user.id,
        s₀.now + seconds (svc.settings.refreshTokenTtlDays * 86400)⟩)) s := by
  -- The token is drawn, and the clock is read for each of the two expiries.
  refine ⟨.ok d.raw, s, rfl, .ok s.now, s, rfl, .ok s.now, s, rfl, ?_⟩
  rw [← hs.now]
  exact ⟨rfl, _, rfl, rfl⟩

/-- The row of an issued token is inserted and committed. -/
theorem ends_insert_commit {request : Request} {tokens : TokenResponse} {u : UserId}
    (hs : Alone i s₀ rows own s) (hnew : own (hashToken svc d.raw) = none)
    (heffect : Effect svc i d.raw s₀ request (.ok (.tokens tokens))
      (Function.update own (hashToken svc d.raw) (some (newRow svc i s₀ u)))) :
    Prog.Ends (d.step i) (do
        await (.insert ⟨hashToken svc d.raw, u,
          s₀.now + seconds (svc.settings.refreshTokenTtlDays * 86400)⟩)
        await .commit
        return .tokens tokens) (Served svc i d.raw s₀ request) s := by
  obtain ⟨t, ht, hinserted⟩ := step_insert hs ⟨hashToken svc d.raw, u,
    s₀.now + seconds (svc.settings.refreshTokenTtlDays * 86400)⟩ hnew
  exact Prog.ends_issue_bind ht (Prog.ends_issue_bind rfl ⟨_, _, hinserted.commit, heffect⟩)

variable (hs : Alone i s₀ s₀.tokens.get? s₀.tokens.get? s)
  (hfresh : s₀.tokens.get? (hashToken svc d.raw) = none)
include hs

/-- The rate limiter lets the call through or answers it, and the state stays. -/
theorem ends_enforceRateLimit (clientIp scope : Text) (limit window : Nat) :
    Prog.Ends (d.step i) (enforceRateLimit svc clientIp scope limit window)
      (fun _ t => t = s) s := by
  have hcheck : Prog.Ends (d.step i) (checkRateLimit svc
      (("ratelimit:" : Text) ++ scope ++ (":" : Text) ++ clientIp) limit window)
      (fun _ t => t = s) s := by
    cases hcount : d.count with
    | some n =>
      have hstep : ∀ key, d.step i (.incrWindow key window) s = some (.ok n, s) := by
        intro key
        simp [Draws.step, Draws.choice, hcount, exec]
      refine Prog.Ends.except (Q := fun r t => t = s ∧ ∃ a, r = .ok a) ?_ (fun _ _ h => h.1) ?_
      · exact Prog.ends_issue_bind (hstep _) ⟨rfl, _, rfl⟩
      · rintro e t ⟨-, a, ha⟩
        cases ha
    | none =>
      have hstep : ∀ key, d.step i (.incrWindow key window) s =
          some (.error (.exc .redisError), s) := by
        intro key
        simp [Draws.step, Draws.choice, hcount, exec, Cmd.waits]
      refine Prog.Ends.except (Q := fun r t => t = s ∧ r = .error (.exc .redisError)) ?_
        (fun _ _ h => h.1) ?_
      · exact ⟨_, _, hstep _, rfl, rfl⟩
      · rintro e t ⟨rfl, he⟩
        cases he
        rw [if_pos rfl]
        cases svc.settings.isProduction <;> rfl
  refine hcheck.bind (fun _ _ h => h) fun allowed t h => ?_
  cases allowed <;> exact h

include hfresh

theorem ends_login (email password clientIp : Text) :
    Prog.Ends (d.step i) (login svc email password clientIp)
      (Served svc i d.raw s₀ (.login email password clientIp)) s := by
  have hfail : ∀ e, Served svc i d.raw s₀ (.login email password clientIp) (.error e) s :=
    fun e => ⟨_, _, hs, .loginFailed⟩
  refine (ends_enforceRateLimit hs clientIp _ _ _).bind (fun e t ht => ht ▸ hfail e) fun _ t ht => ?_
  subst ht
  refine Prog.ends_issue_bind rfl ?_
  rw [hs.users]
  cases huser : s₀.users.find? (fun u => decide (u.email = email)) with
  | none => exact hfail _
  | some user =>
    refine Prog.ends_issue_bind rfl ?_
    cases verifyPassword svc password user.hashedPassword with
    | false => exact hfail _
    | true =>
      show Prog.Ends _ (loginUser svc user) _ _
      unfold loginUser
      cases user.isActive with
      | false => exact hfail _
      | true =>
        refine (ends_issueTokens hs user).bind (fun e t he => ?_) fun a t ha => ?_
        · obtain ⟨-, tokens, -, he⟩ := he
          cases he
        · obtain ⟨rfl, tokens, htokens, ha⟩ := ha
          cases ha
          exact ends_insert_commit hs hfresh (.login huser htokens)

omit hfresh in
theorem ends_logout (x : Text) :
    Prog.Ends (d.step i) (logout svc x) (Served svc i d.raw s₀ (.logout x)) s := by
  refine (ends_revokeWhere hs (.tokenHash (hashToken svc x))).bind (fun e t he => ?_) fun _ t ht => ?_
  · cases he.1
  · exact Prog.ends_issue_bind rfl ⟨_, _, ht.2.commit, .loggedOut⟩

theorem ends_rotate {x : Text} {row : Row} {user : User}
    (hrow : s₀.tokens.get? (hashToken svc x) = some row) (husable : row.Usable s₀)
    (huser : user.id = row.userId) :
    Prog.Ends (d.step i) (rotate svc (hashToken svc x) user) (Served svc i d.raw s₀ (.refresh x))
      s := by
  refine (ends_issueTokens hs user).bind (fun e t he => ?_) fun a t ha => ?_
  · obtain ⟨-, tokens, -, he⟩ := he
    cases he
  · obtain ⟨rfl, tokens, htokens, ha⟩ := ha
    cases ha
    obtain ⟨u, hu, hrevoked⟩ := step_revokeRow hs (hashToken svc x)
    refine Prog.ends_issue_bind hu ?_
    -- The presented token has a row, so the new one has another key.
    have hne : hashToken svc d.raw ≠ hashToken svc x := by
      intro h
      rw [h, hrow] at hfresh
      cases hfresh
    rw [hrow] at hrevoked
    refine ends_insert_commit hrevoked ?_ ?_
    · rw [Function.update_of_ne hne]
      exact hfresh
    · rw [huser]
      exact .rotated hrow husable htokens

theorem ends_refresh (x : Text) :
    Prog.Ends (d.step i) (refresh svc x) (Served svc i d.raw s₀ (.refresh x)) s := by
  obtain ⟨t, ht, hlocked⟩ := step_selectForUpdate hs (hashToken svc x)
  refine Prog.ends_issue_bind ht ?_
  cases hrow : s₀.tokens.get? (hashToken svc x) with
  | none =>
    refine ⟨_, _, hlocked, .refreshFailed fun row h => ?_⟩
    rw [hrow] at h
    cases h
  | some row =>
    have hfail : ∀ e, row.revoked = false → ¬row.Usable s₀ →
        Served svc i d.raw s₀ (.refresh x) (.error e) t := by
      refine fun e hlive hunusable => ⟨_, _, hlocked, .refreshFailed fun row' h => ?_⟩
      rw [hrow] at h
      cases h
      exact ⟨hlive, hunusable⟩
    show Prog.Ends _ (if row.revoked then reuseDetected row else refreshUnrevoked svc _ row) _ _
    cases hrevoked : row.revoked with
    | true =>
      refine (ends_revokeWhere hlocked (.userId row.userId)).bind (fun e u he => ?_) fun _ u hu => ?_
      · cases he.1
      · exact Prog.ends_issue_bind rfl ⟨_, _, hu.2.commit, .reused hrow hrevoked⟩
    | false =>
      refine Prog.ends_issue_bind rfl ?_
      rw [hlocked.now]
      by_cases hexpired : row.expiresAt < s₀.now
      · rw [if_pos hexpired]
        exact hfail _ hrevoked fun h => h.2.1 hexpired
      · rw [if_neg hexpired]
        refine Prog.ends_issue_bind rfl ?_
        rw [hlocked.users]
        cases huser : s₀.users.find? (fun u => decide (u.id = row.userId)) with
        | none =>
          refine hfail _ hrevoked fun h => ?_
          obtain ⟨user, hfound, -⟩ := h.2.2
          rw [huser] at hfound
          cases hfound
        | some user =>
          show Prog.Ends _ (if user.isActive then rotate svc _ user else _) _ _
          cases hactive : user.isActive with
          | false =>
            refine hfail _ hrevoked fun h => ?_
            obtain ⟨user', hfound, hactive'⟩ := h.2.2
            rw [huser] at hfound
            cases hfound
            rw [hactive] at hactive'
            cases hactive'
          | true =>
            have hid : user.id = row.userId := by simpa using List.find?_some huser
            exact ends_rotate hlocked hfresh hrow ⟨hrevoked, hexpired, user, huser, hactive⟩ hid

end Routes

/-- A call that begins with nothing open, and whose new token is not in the table,
comes to an end and has its effect. -/
theorem perform_spec {svc : Service} {d : Draws} {s : World} (i : Thread) (request : Request)
    (hs : Quiet s) (hfresh : s.tokens.get? (hashToken svc d.raw) = none) :
    ∃ r s' rows, perform svc i request d s = some (r, s') ∧ Rests s rows s' ∧
      Effect svc i d.raw s request r rows := by
  have hhandler : Prog.Ends (d.step i) (handler svc request) (Served svc i d.raw s request)
      (s.openSession i) := by
    cases request with
    | login email password clientIp => exact ends_login hs.alone hfresh email password clientIp
    | refresh x => exact ends_refresh hs.alone hfresh x
    | logout x => exact ends_logout hs.alone x
  have hserve : Prog.Ends (d.step i) (serve svc request) (fun r t => ∃ rows, Rests s rows t ∧
      Effect svc i d.raw s request r rows) s := by
    refine Prog.ends_issue_bind rfl (hhandler.finally_ fun r t ht => ?_)
    obtain ⟨rows, own, halone, heffect⟩ := ht
    exact Prog.ends_issue rfl ⟨rfl, rows, halone.close, heffect⟩
  obtain ⟨r, s', heval, rows, hrests, heffect⟩ := hserve.eval
  exact ⟨r, s', rows, heval, hrests, heffect⟩

/-! ## The table and the history -/

def Request.texts : Request → List Text
  | .login _ _ _ => []
  | .refresh x => [x]
  | .logout x => [x]

/-- No two of the texts have the same digest. -/
def Apart (svc : Service) (T : List Text) : Prop :=
  ∀ x ∈ T, ∀ y ∈ T, hashToken svc x = hashToken svc y → x = y

/-- Of the texts in `T`, the table says what the history says. -/
structure Agrees (svc : Service) (T : List Text) (h : History) (s : World) : Prop where
  stored : ∀ x ∈ T, (s.tokens.get? (hashToken svc x)).map (fun r => (r.userId, r.expiresAt)) =
    issued svc h x
  revoked : ∀ x ∈ T, ∀ row, s.tokens.get? (hashToken svc x) = some row →
    (row.revoked = true ↔ Revoked svc h x)
  known : ∀ x, Revoked svc h x → (issued svc h x).isSome

section Agrees

variable {svc : Service} {T : List Text} {h : History} {s s' : World} {x raw : Text} {row : Row}

theorem Agrees.get?_eq_none (ha : Agrees svc T h s) (hx : x ∈ T) (hnone : issued svc h x = none) :
    s.tokens.get? (hashToken svc x) = none := by
  have hmap := ha.stored x hx
  rw [hnone] at hmap
  exact Option.map_eq_none_iff.mp hmap

theorem Agrees.issued_eq (ha : Agrees svc T h s) (hx : x ∈ T)
    (hrow : s.tokens.get? (hashToken svc x) = some row) :
    issued svc h x = some (row.userId, row.expiresAt) := by
  rw [← ha.stored x hx, hrow]
  rfl

theorem Agrees.holder_eq (ha : Agrees svc T h s) (hx : x ∈ T)
    (hrow : s.tokens.get? (hashToken svc x) = some row) : holder svc h x = some row.userId := by
  rw [holder, ha.issued_eq hx hrow]
  rfl

theorem Agrees.row_of_holder {u : UserId} (ha : Agrees svc T h s) (hx : x ∈ T)
    (hu : holder svc h x = some u) :
    ∃ row, s.tokens.get? (hashToken svc x) = some row ∧ row.userId = u := by
  rw [holder, ← ha.stored x hx, Option.map_map] at hu
  exact Option.map_eq_some_iff.mp hu

/-- The table decides what the history calls valid. -/
theorem Agrees.valid_iff (ha : Agrees svc T h s) (hx : x ∈ T) :
    Valid svc h s.now s.users x ↔
      ∃ row, s.tokens.get? (hashToken svc x) = some row ∧ row.Usable s := by
  rw [Auth.valid_iff]
  constructor
  · rintro ⟨u, expiry, hissued, hexpiry, hactive, hlive⟩
    obtain ⟨row, hrow, hcols⟩ := Option.map_eq_some_iff.mp ((ha.stored x hx).trans hissued)
    cases hcols
    refine ⟨row, hrow, ?_, hexpiry, hactive⟩
    exact Bool.eq_false_iff.mpr fun h => hlive ((ha.revoked x hx row hrow).mp h)
  · rintro ⟨row, hrow, hlive, hexpiry, hactive⟩
    refine ⟨row.userId, row.expiresAt, ha.issued_eq hx hrow, hexpiry, hactive, fun h => ?_⟩
    rw [(ha.revoked x hx row hrow).mpr h] at hlive
    cases hlive

end Agrees

/-! ## A call keeps the agreement -/

section Call

variable {svc : Service} {T : List Text} {h : History} {s s' : World} {i : Thread} {raw : Text}
  {request : Request} {r : Except Fault Reply} {rows : Hash → Option Row}

/-- A token in an answer is the one drawn. -/
theorem Effect.given_eq (heffect : Effect svc i raw s request r rows) :
    given r = none ∨ given r = some raw := by
  cases heffect with
  | login _ ht => exact Or.inr (congrArg some ht)
  | rotated _ _ ht => exact Or.inr (congrArg some ht)
  | _ => exact Or.inl rfl

/-- A refresh is answered with a token exactly if the stored token passes the checks. -/
theorem Effect.given_iff {x : Text} (heffect : Effect svc i raw s (.refresh x) r rows) :
    (given r).isSome ↔ ∃ row, s.tokens.get? (hashToken svc x) = some row ∧ row.Usable s := by
  cases heffect with
  | @rotated x row t hrow husable ht => exact ⟨fun _ => ⟨row, hrow, husable⟩, fun _ => rfl⟩
  | @reused x row e hrow hrevoked =>
    refine ⟨fun h => (by cases h), fun h => ?_⟩
    obtain ⟨row', hrow', husable⟩ := h
    rw [hrow] at hrow'
    cases hrow'
    rw [husable.1] at hrevoked
    cases hrevoked
  | refreshFailed hfail =>
    refine ⟨fun h => (by cases h), fun h => ?_⟩
    obtain ⟨row, hrow, husable⟩ := h
    exact absurd husable (hfail row hrow).2

variable (ha : Agrees svc T h s) (happart : Apart svc T) (htexts : request.texts ⊆ T)
  (hraw : raw ∈ T) (hnew : issued svc h raw = none)
  (heffect : Effect svc i raw s request r rows)

include hnew heffect in
/-- Whoever holds a token keeps holding it. -/
theorem issued_call {x : Text} {e : UserId × Time} (hx : issued svc h x = some e) :
    issued svc (⟨request, r, s.now, s.users⟩ :: h) x = some e := by
  rw [issued_cons_of_ne, hx]
  rcases heffect.given_eq with hg | hg
  · simp [hg]
  · intro hx'
    obtain rfl : raw = x := Option.some.inj (hg.symm.trans hx')
    rw [hnew] at hx
    cases hx

include ha htexts hnew heffect in
theorem known_call {x : Text} (hx : Revoked svc (⟨request, r, s.now, s.users⟩ :: h) x) :
    (issued svc (⟨request, r, s.now, s.users⟩ :: h) x).isSome := by
  have hbefore : (issued svc h x).isSome := by
    rcases revoked_cons.mp hx with hx | ⟨hreq, hg⟩ | ⟨-, hi⟩ | ⟨y, u, -, -, -, hxu⟩
    · exact ha.known x hx
    · obtain rfl : request = .refresh x := hreq
      obtain ⟨row, hrow, -⟩ := heffect.given_iff.mp hg
      rw [ha.issued_eq (htexts List.mem_cons_self) hrow]
      rfl
    · exact hi
    · rw [holder] at hxu
      obtain ⟨e, he, -⟩ := Option.map_eq_some_iff.mp hxu
      rw [he]
      rfl
  obtain ⟨e, he⟩ := Option.isSome_iff_exists.mp hbefore
  rw [issued_call hnew heffect he]
  rfl

include happart hraw in
/-- A row for the drawn token leaves the rows of the others alone. -/
theorem update_stored {own : Hash → Option Row} {u : UserId} {x : Text} (hx : x ∈ T)
    (hgiven : given r = some raw)
    (hparty : request.party (holder svc h) s.users = some u)
    (hown : (own (hashToken svc x)).map (fun e => (e.userId, e.expiresAt)) = issued svc h x) :
    (Function.update own (hashToken svc raw) (some (newRow svc i s u)) (hashToken svc x)).map
        (fun e => (e.userId, e.expiresAt)) =
      issued svc (⟨request, r, s.now, s.users⟩ :: h) x := by
  by_cases hxr : x = raw
  · subst hxr
    have hparty' : request.party (fun y => (issued svc h y).map Prod.fst) s.users = some u := hparty
    rw [Function.update_self]
    simp only [issued, hgiven, if_true, hparty']
    rfl
  · have hne : hashToken svc x ≠ hashToken svc raw := fun h => hxr (happart x hx raw hraw h)
    rw [Function.update_of_ne hne, hown, issued_cons_of_ne]
    intro h
    exact hxr (Option.some.inj (hgiven.symm.trans h)).symm

theorem revoked_login {email password clientIp x : Text} {now : Time} {users : List User} :
    Revoked svc (⟨.login email password clientIp, r, now, users⟩ :: h) x ↔ Revoked svc h x := by
  simp [revoked_cons]

theorem revoked_logout {x y : Text} {now : Time} {users : List User} :
    Revoked svc (⟨.logout y, r, now, users⟩ :: h) x ↔
      Revoked svc h x ∨ (y = x ∧ (issued svc h x).isSome) := by
  simp [revoked_cons]

theorem revoked_refresh {x y : Text} {now : Time} {users : List User} :
    Revoked svc (⟨.refresh y, r, now, users⟩ :: h) x ↔
      Revoked svc h x ∨ (y = x ∧ (given r).isSome) ∨
        (Revoked svc h y ∧ ∃ u, holder svc h y = some u ∧ holder svc h x = some u) := by
  simp [revoked_cons]

/-- An `UPDATE` keeps the columns other than `revoked`. -/
theorem revokeIn_columns (w : Where) (k : Hash) :
    (revokeIn w rows k).map (fun e => (e.userId, e.expiresAt)) =
      (rows k).map (fun e => (e.userId, e.expiresAt)) := by
  rw [revokeIn, Option.map_map]
  congr 1
  funext row
  by_cases hw : w.holds (k, row) = true <;> simp [hw, Row.revoke]

/-- A row stands revoked after an `UPDATE` if it did before, or if it was in it. -/
theorem revokeIn_revoked {w : Where} {k : Hash} {row : Row} (hrow : revokeIn w rows k = some row) :
    ∃ old, rows k = some old ∧
      (row.revoked = true ↔ old.revoked = true ∨ w.holds (k, old) = true) := by
  obtain ⟨old, hold, rfl⟩ := Option.map_eq_some_iff.mp hrow
  refine ⟨old, hold, ?_⟩
  by_cases hw : w.holds (k, old) = true <;> simp [hw, Row.revoke]

include ha happart htexts hraw heffect in
theorem stored_call {x : Text} (hx : x ∈ T) :
    (rows (hashToken svc x)).map (fun e => (e.userId, e.expiresAt)) =
      issued svc (⟨request, r, s.now, s.users⟩ :: h) x := by
  have hstored := ha.stored x hx
  cases heffect with
  | @login email password clientIp user t huser ht =>
    refine update_stored happart hraw hx (congrArg some ht) ?_ hstored
    rw [Request.party, huser]
    rfl
  | loginFailed => exact hstored
  | @rotated y row t hrow _ ht =>
    have hy : y ∈ T := htexts List.mem_cons_self
    refine update_stored happart hraw hx (congrArg some ht) (ha.holder_eq hy hrow) ?_
    by_cases hxy : hashToken svc x = hashToken svc y
    · rw [hxy, Function.update_self, ← hstored, hxy, hrow]
      rfl
    · rw [Function.update_of_ne hxy]
      exact hstored
  | reused _ _ => exact (revokeIn_columns _ _).trans hstored
  | refreshFailed _ => exact hstored
  | loggedOut => exact (revokeIn_columns _ _).trans hstored

include happart hraw hnew ha in
/-- The row that is added for the drawn token, which nobody has revoked. -/
theorem update_revoked {own : Hash → Option Row} {u : UserId} {x : Text} {row : Row} {B : Prop}
    (hx : x ∈ T) (hB : B → issued svc h x ≠ none)
    (hrow : Function.update own (hashToken svc raw) (some (newRow svc i s u))
      (hashToken svc x) = some row)
    (hown : own (hashToken svc x) = some row → (row.revoked = true ↔ Revoked svc h x ∨ B)) :
    row.revoked = true ↔ Revoked svc h x ∨ B := by
  by_cases hxr : x = raw
  · subst hxr
    rw [Function.update_self] at hrow
    cases hrow
    refine ⟨fun h => (by cases h), fun h => ?_⟩
    have hissued : (issued svc _ x).isSome := h.elim (ha.known x) fun hb =>
      Option.isSome_iff_ne_none.mpr (hB hb)
    rw [hnew] at hissued
    cases hissued
  · have hne : hashToken svc x ≠ hashToken svc raw := fun h => hxr (happart x hx raw hraw h)
    rw [Function.update_of_ne hne] at hrow
    exact hown hrow

include ha happart htexts hraw hnew heffect in
theorem revoked_call {x : Text} {row : Row} (hx : x ∈ T)
    (hrow : rows (hashToken svc x) = some row) :
    row.revoked = true ↔ Revoked svc (⟨request, r, s.now, s.users⟩ :: h) x := by
  cases heffect with
  | @login email password clientIp user t huser ht =>
    rw [revoked_login]
    have := update_revoked (B := False) ha happart hraw hnew hx False.elim hrow fun h => by
      rw [or_false]
      exact ha.revoked x hx row h
    rwa [or_false] at this
  | loginFailed =>
    rw [revoked_login]
    exact ha.revoked x hx row hrow
  | @rotated y old t hold husable ht =>
    have hy : y ∈ T := htexts List.mem_cons_self
    -- The presented token was not revoked, so its family stays.
    have hlive : ¬Revoked svc h y := by
      rw [← ha.revoked y hy old hold, husable.1]
      exact Bool.false_ne_true
    rw [revoked_refresh]
    simp only [hlive, false_and, or_false]
    have hgiven : (given (.ok (.tokens t))).isSome = true := rfl
    simp only [hgiven, and_true]
    refine update_revoked ha happart hraw hnew hx ?_ hrow fun h => ?_
    · rintro rfl hnone
      rw [ha.issued_eq hy hold] at hnone
      cases hnone
    · by_cases hxy : x = y
      · subst hxy
        rw [Function.update_self] at h
        cases h
        simp [Row.revoke]
      · have hne : hashToken svc x ≠ hashToken svc y := fun h => hxy (happart x hx y hy h)
        rw [Function.update_of_ne hne] at h
        rw [ha.revoked x hx row h, or_iff_left (Ne.symm hxy)]
  | @reused y old e hold hrevoked =>
    have hy : y ∈ T := htexts List.mem_cons_self
    have hdead : Revoked svc h y := (ha.revoked y hy old hold).mp hrevoked
    obtain ⟨before, hbefore, hiff⟩ := revokeIn_revoked hrow
    rw [hiff, revoked_refresh, ha.revoked x hx before hbefore]
    refine or_congr_right ?_
    simp [given, hdead, ha.holder_eq hy hold, ha.holder_eq hx hbefore, Where.holds, eq_comm]
  | @refreshFailed y e hfail =>
    have hy : y ∈ T := htexts List.mem_cons_self
    rw [revoked_refresh, ha.revoked x hx row hrow]
    refine (or_iff_left ?_).symm
    rintro (⟨-, hg⟩ | ⟨hdead, u, hyu, -⟩)
    · cases hg
    · obtain ⟨old, hold, -⟩ := ha.row_of_holder hy hyu
      have hlive := (hfail old hold).1
      rw [(ha.revoked y hy old hold).mpr hdead] at hlive
      cases hlive
  | @loggedOut y =>
    have hy : y ∈ T := htexts List.mem_cons_self
    obtain ⟨before, hbefore, hiff⟩ := revokeIn_revoked hrow
    rw [hiff, revoked_logout, ha.revoked x hx before hbefore, ha.issued_eq hx hbefore]
    refine or_congr_right ?_
    simp only [Where.holds, decide_eq_true_eq, Option.isSome_some, and_true]
    exact ⟨fun h => (happart x hx y hy h).symm, fun h => h ▸ rfl⟩

include ha happart htexts hraw hnew heffect in
/-- A call keeps the agreement of the table with the history. -/
theorem Agrees.call (hrests : Rests s rows s') :
    Agrees svc T (⟨request, r, s.now, s.users⟩ :: h) s' where
  stored x hx := by
    rw [hrests.rows]
    exact stored_call ha happart htexts hraw heffect hx
  revoked x hx row hrow := by
    rw [hrests.rows] at hrow
    exact revoked_call ha happart htexts hraw hnew heffect hx hrow
  known x hx := known_call ha htexts hnew heffect hx

end Call

/-! ## Every sequence of calls -/

def Item.drawn : Item → List Text
  | .call _ d => [d.raw]
  | .event _ => []

/-- The texts that are drawn or presented. -/
def Item.texts : Item → List Text
  | .call request d => d.raw :: request.texts
  | .event _ => []

/-- What the routes count on: no token is drawn twice, and no two of those that are
drawn or presented have the same digest. -/
structure Genuine (svc : Service) (items : List Item) : Prop where
  distinct : (items.flatMap Item.drawn).Nodup
  apart : Apart svc (items.flatMap Item.texts)

/-- The refresh of a token right after these calls. -/
def refreshNext (svc : Service) (items : List Item) (x : Text) (d : Draws) :
    Option (Except Fault Reply) :=
  (execute svc items).bind fun p =>
    (perform svc p.history.length (.refresh x) d p.state).map Prod.fst

/-- It is answered with a new token. -/
def Succeeds (svc : Service) (items : List Item) (x : Text) (d : Draws) : Prop :=
  ∃ r, refreshNext svc items x d = some r ∧ (given r).isSome

/-- What holds between two calls. -/
structure Tracks (svc : Service) (T : List Text) (items : List Item) (p : Progress) : Prop where
  agrees : Agrees svc T p.history p.state
  quiet : Quiet p.state
  drawn : ∀ x, (issued svc p.history x).isSome → x ∈ items.flatMap Item.drawn

section Runs

variable {svc : Service} {T : List Text} {items : List Item} {p : Progress} {request : Request}
  {d : Draws}

theorem execute_concat (item : Item) :
    execute svc (items ++ [item]) = (execute svc items).bind fun p => p.take svc item := by
  simp [execute, List.foldlM_append]

/-- The token drawn for the next call has not been issued. -/
theorem Tracks.fresh (ht : Tracks svc T items p)
    (hnodup : ((items ++ [Item.call request d]).flatMap Item.drawn).Nodup) :
    issued svc p.history d.raw = none := by
  have hnot : d.raw ∉ items.flatMap Item.drawn := by
    rw [List.flatMap_append] at hnodup
    intro hmem
    exact (List.nodup_append.mp hnodup).2.2 d.raw hmem d.raw List.mem_cons_self rfl
  cases hi : issued svc p.history d.raw with
  | none => rfl
  | some e => exact absurd (ht.drawn d.raw (by rw [hi]; rfl)) hnot

/-- One call, from a state that the history describes. -/
theorem Tracks.call (ht : Tracks svc T items p) (happart : Apart svc T)
    (htexts : (Item.call request d).texts ⊆ T)
    (hnodup : ((items ++ [Item.call request d]).flatMap Item.drawn).Nodup) :
    ∃ r s' rows, perform svc p.history.length request d p.state = some (r, s') ∧
      Rests p.state rows s' ∧ Effect svc p.history.length d.raw p.state request r rows ∧
      Tracks svc T (items ++ [.call request d])
        ⟨s', ⟨request, r, p.state.now, p.state.users⟩ :: p.history⟩ := by
  have hraw : d.raw ∈ T := htexts List.mem_cons_self
  have hnew : issued svc p.history d.raw = none := ht.fresh hnodup
  obtain ⟨r, s', rows, hperform, hrests, heffect⟩ := perform_spec p.history.length request
    ht.quiet (ht.agrees.get?_eq_none hraw hnew)
  refine ⟨r, s', rows, hperform, hrests, heffect, ?_, hrests.quiet, fun x hx => ?_⟩
  · exact ht.agrees.call happart (fun y hy => htexts (List.mem_cons_of_mem _ hy)) hraw hnew heffect
      hrests
  · rw [List.flatMap_append, List.mem_append]
    by_cases hgiven : given r = some x
    · rcases heffect.given_eq with hg | hg
      · rw [hg] at hgiven
        cases hgiven
      · rw [hg] at hgiven
        cases hgiven
        exact Or.inr List.mem_cons_self
    · rw [issued_cons_of_ne hgiven] at hx
      exact Or.inl (ht.drawn x hx)

theorem Tracks.event (ht : Tracks svc T items p) (e : Event) :
    Tracks svc T (items ++ [.event e]) { p with state := e.apply p.state } := by
  have htokens : (e.apply p.state).tokens = p.state.tokens := by cases e <;> rfl
  refine ⟨⟨?_, ?_, ht.agrees.known⟩, ⟨?_, ?_⟩, fun x hx => ?_⟩
  · rw [htokens]
    exact ht.agrees.stored
  · rw [htokens]
    exact ht.agrees.revoked
  · rw [htokens]
    exact ht.quiet.owner
  · rw [htokens]
    exact ht.quiet.pending
  · rw [List.flatMap_append, List.mem_append]
    exact Or.inl (ht.drawn x hx)

/-- Every sequence of calls comes to an end, and the history describes the table. -/
theorem execute_tracks (happart : Apart svc T) (htexts : items.flatMap Item.texts ⊆ T)
    (hnodup : (items.flatMap Item.drawn).Nodup) :
    ∃ p, execute svc items = some p ∧ Tracks svc T items p := by
  induction items using List.reverseRecOn with
  | nil =>
    refine ⟨{}, rfl, ⟨fun _ _ => rfl, fun _ _ _ h => (by cases h), fun _ h => (by cases h)⟩, ?_, ?_⟩
    · exact ⟨fun _ => rfl, fun _ => rfl⟩
    · intro x hx
      cases hx
  | append_singleton items item ih =>
    rw [List.flatMap_append] at htexts
    obtain ⟨p, hp, ht⟩ := ih (List.Subset.trans (List.subset_append_left _ _) htexts) (by
      rw [List.flatMap_append] at hnodup
      exact hnodup.of_append_left)
    rw [execute_concat, hp, Option.bind_some]
    cases item with
    | call request d =>
      have hitem : (Item.call request d).texts ⊆ T := by
        intro x hx
        exact htexts (List.mem_append_right _ (by simpa using hx))
      obtain ⟨r, s', rows, hperform, -, -, htracks⟩ := ht.call happart hitem hnodup
      refine ⟨_, ?_, htracks⟩
      rw [Progress.take, hperform]
      rfl
    | event e => exact ⟨_, rfl, ht.event e⟩

/-- The next refresh succeeds exactly if the history calls the token valid. -/
theorem Tracks.succeeds_iff {x : Text} (ht : Tracks svc T items p) (hp : execute svc items = some p)
    (happart : Apart svc T) (htexts : (Item.call (.refresh x) d).texts ⊆ T)
    (hnodup : ((items ++ [Item.call (.refresh x) d]).flatMap Item.drawn).Nodup) :
    (∃ r, refreshNext svc items x d = some r) ∧
      (Succeeds svc items x d ↔ Valid svc p.history p.state.now p.state.users x) := by
  obtain ⟨r, s', rows, hperform, -, heffect, -⟩ := ht.call happart htexts hnodup
  have hnext : refreshNext svc items x d = some r := by
    rw [refreshNext, hp, Option.bind_some, hperform]
    rfl
  have hx : x ∈ T := htexts (List.mem_cons_of_mem _ List.mem_cons_self)
  refine ⟨⟨r, hnext⟩, ?_⟩
  rw [ht.agrees.valid_iff hx, ← heffect.given_iff]
  constructor
  · rintro ⟨r', hr', hg⟩
    rw [hnext] at hr'
    cases hr'
    exact hg
  · exact fun hg => ⟨r, hnext, hg⟩

end Runs

/-- A call of one user leaves open what the tokens of another are worth. -/
theorem valid_call {svc : Service} {h : History} {s : World} {i : Thread} {raw x : Text}
    {request : Request} {r : Except Fault Reply} {rows : Hash → Option Row} {u : UserId}
    (hnew : issued svc h raw = none) (heffect : Effect svc i raw s request r rows)
    (hx : holder svc h x = some u) (hother : request.party (holder svc h) s.users ≠ some u) :
    Valid svc (⟨request, r, s.now, s.users⟩ :: h) s.now s.users x ↔
      Valid svc h s.now s.users x := by
  obtain ⟨e, hissued, rfl⟩ := Option.map_eq_some_iff.mp hx
  have hrevoked : Revoked svc (⟨request, r, s.now, s.users⟩ :: h) x ↔ Revoked svc h x := by
    rw [revoked_cons]
    refine or_iff_left ?_
    rintro (⟨rfl, -⟩ | ⟨rfl, -⟩ | ⟨y, v, rfl, -, hyv, hxv⟩)
    · exact hother hx
    · exact hother hx
    · refine hother ?_
      show holder svc h y = some e.1
      rw [hyv, ← hxv, hx]
  rw [valid_iff, valid_iff, hrevoked, issued_call hnew heffect hissued, hissued]

/-- Rotation is what the history of the answers says it is.  After any sequence of
logins, refreshes and logouts a refresh comes to an end, and it succeeds exactly if
its token was issued, has not expired, belongs to an active user, and was neither
exchanged nor logged out nor given up with its family.  No call changes what the
tokens of another user are worth. -/
theorem rotation_refines_history (svc : Service) (items : List Item) :
    (∀ x d, Genuine svc (items ++ [.call (.refresh x) d]) →
      ∃ p, execute svc items = some p ∧ (∃ r, refreshNext svc items x d = some r) ∧
        (Succeeds svc items x d ↔ Valid svc p.history p.state.now p.state.users x)) ∧
    (∀ request d x d' p u, Genuine svc (items ++ [.call request d] ++ [.call (.refresh x) d']) →
      execute svc items = some p → holder svc p.history x = some u →
      request.party (holder svc p.history) p.state.users ≠ some u →
      (Succeeds svc (items ++ [.call request d]) x d' ↔ Succeeds svc items x d')) := by
  refine ⟨fun x d hg => ?_, fun request d x d' p u hg hp hx hother => ?_⟩
  · have htexts : items.flatMap Item.texts ++ (Item.call (.refresh x) d).texts ⊆
        (items ++ [Item.call (.refresh x) d]).flatMap Item.texts := by simp [List.flatMap_append]
    obtain ⟨hbefore, hcall⟩ := List.append_subset.mp htexts
    have hnodup := hg.distinct
    rw [List.flatMap_append] at hnodup
    obtain ⟨p, hp, ht⟩ := execute_tracks hg.apart hbefore hnodup.of_append_left
    obtain ⟨hends, hiff⟩ := ht.succeeds_iff hp hg.apart hcall hg.distinct
    exact ⟨p, hp, hends, hiff⟩
  · have hall : items.flatMap Item.texts ++ ((Item.call request d).texts ++
        (Item.call (.refresh x) d').texts) ⊆
        (items ++ [Item.call request d] ++ [Item.call (.refresh x) d']).flatMap Item.texts := by
      simp [List.flatMap_append]
    obtain ⟨hbefore, hcalls⟩ := List.append_subset.mp hall
    obtain ⟨hfirst, hsecond⟩ := List.append_subset.mp hcalls
    have hnodup : ((items ++ [Item.call request d]).flatMap Item.drawn).Nodup := by
      have hnodup := hg.distinct
      rw [List.flatMap_append] at hnodup
      exact hnodup.of_append_left
    have hskip : ((items ++ [Item.call (.refresh x) d']).flatMap Item.drawn).Nodup := by
      refine hg.distinct.sublist (List.Sublist.flatMap ?_ _)
      exact (List.sublist_append_left items _).append (List.Sublist.refl _)
    obtain ⟨p', hp', ht⟩ := execute_tracks hg.apart hbefore (by
      rw [List.flatMap_append] at hnodup
      exact hnodup.of_append_left)
    obtain rfl : p = p' := Option.some.inj (hp.symm.trans hp')
    obtain ⟨r, s', rows, hperform, hrests, heffect, htracks⟩ := ht.call hg.apart hfirst hnodup
    have hnext : execute svc (items ++ [.call request d]) =
        some ⟨s', ⟨request, r, p.state.now, p.state.users⟩ :: p.history⟩ := by
      rw [execute_concat, hp, Option.bind_some, Progress.take, hperform]
      rfl
    rw [(ht.succeeds_iff hp hg.apart hsecond hskip).2,
      (htracks.succeeds_iff hnext hg.apart hsecond hg.distinct).2, hrests.now, hrests.users]
    exact valid_call (ht.fresh hnodup) heffect hx hother

/-- A login, and the exchange of its token. -/
def mockItems : List Item :=
  [.event (.users [mockUser]),
    .call (.login "user@test" "password" "127.0.0.1") { raw := tokenA },
    .call (.refresh tokenA) { raw := tokenB }]

theorem succeeds_of_given {svc : Service} {items : List Item} {x : Text} {d : Draws}
    {o : Option Text} (h : (refreshNext svc items x d).map given = some o) :
    Succeeds svc items x d ↔ o.isSome := by
  obtain ⟨r, hr, rfl⟩ := Option.map_eq_some_iff.mp h
  simp [Succeeds, hr]

/-- The second token is good until the first is presented again. -/
theorem rotation_refines_history_mock :
    (∃ p, execute mockService mockItems = some p ∧
      Valid mockService p.history p.state.now p.state.users tokenB) ∧
    ∃ p, execute mockService (mockItems ++ [.call (.refresh tokenA) { raw := tokenC }]) = some p ∧
      ¬Valid mockService p.history p.state.now p.state.users tokenB := by
  have hgenuine : Genuine mockService (mockItems ++ [.call (.refresh tokenB) { raw := tokenC }]) :=
    ⟨by decide +kernel, by unfold Apart; decide +kernel⟩
  have hgenuine' : Genuine mockService (mockItems ++ [.call (.refresh tokenA) { raw := tokenC }] ++
      [.call (.refresh tokenB) { raw := tokenD }]) :=
    ⟨by decide +kernel, by unfold Apart; decide +kernel⟩
  constructor
  · obtain ⟨p, hp, -, hiff⟩ := (rotation_refines_history mockService mockItems).1 tokenB _ hgenuine
    exact ⟨p, hp, hiff.mp ((succeeds_of_given (o := some tokenC) (by decide +kernel)).mpr rfl)⟩
  · obtain ⟨p, hp, -, hiff⟩ := (rotation_refines_history mockService _).1 tokenB _ hgenuine'
    refine ⟨p, hp, fun hvalid => ?_⟩
    have hfails := (succeeds_of_given (o := none) (by decide +kernel)).mp (hiff.mpr hvalid)
    cases hfails

end Auth
end AdaptiveGateway
