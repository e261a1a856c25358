/-
API keys, from their issue to their revocation.

Administrators issue keys and revoke them, and the middleware looks up the key of every
request that presents one.  A lookup takes no lock and sees what is committed when it is
made, so a request that is under way while its key is revoked may still be let in.  What a
revocation promises is about the requests that begin after it was answered.

The rows are kept under the hash of the key, which is unique as the identifier is.
Identifiers are drawn at random and taken not to repeat: `drawn` are those in use.
`creator` is history.
-/
import AdaptiveGateway.Auth.Admin
import AdaptiveGateway.Concurrent.Table

namespace AdaptiveGateway
namespace Auth.Keys

open Codec Concurrent Python

/-- A row of `api_keys`. -/
structure Row where
  key : Admin.ApiKey
  name : Text
  keyPrefix : Text
  createdAt : Time
  creator : Option Thread := none

def Row.revoke (r : Row) : Row := { r with key := { r.key with isActive := false } }

/-- The columns of an `APIKey` that is added to a session. -/
structure NewKey where
  name : Text
  keyHash : Hash
  keyPrefix : Text
  userId : Option UserId

structure APIKeyCreated where
  id : Text
  name : Text
  keyPrefix : Text
  isActive : Bool
  createdAt : Time
  apiKey : Text
deriving DecidableEq

inductive Call where
  | create (name principal : Text)
  | revoke (keyId : Text)
  /-- A request that reaches the middleware. -/
  | request (r : Admin.Request)

inductive Reply where
  | created (out : APIKeyCreated)
  | noContent
  /-- What the middleware answers, or attaches to the request. -/
  | identified (o : Except Admin.Response Admin.State)

/-! ## Commands -/

inductive Cmd where
  /-- `secrets.token_hex(4)`. -/
  | tokenHex
  /-- `secrets.token_urlsafe(32)`. -/
  | tokenUrlsafe
  | insert (new : NewKey)
  | refresh (h : Hash)
  /-- `db.get(APIKey, key_id)`. -/
  | getKey (id : Text)
  /-- `UPDATE api_keys SET is_active = false WHERE id = ...`. -/
  | deactivate (id : Text)
  | commit

abbrev Ans : Cmd → Type
  | .tokenHex | .tokenUrlsafe => Text
  | .refresh _ => Row
  | .getKey _ => Option Row
  | _ => Unit

/-- The commands of the middleware, and those of the routes. -/
abbrev AnyCmd := Admin.Cmd ⊕ Cmd

abbrev AnyAns : AnyCmd → Type := Sum.elim Admin.Ans Ans

def waits : AnyCmd → Bool
  | .inl .closeSession | .inr .tokenHex | .inr .tokenUrlsafe => false
  | _ => true

inductive Choice where
  | done
  | text (t : Text)
  | uuid (id : Text)
  /-- The command fails, with an error of the database or another one, and has done
  nothing. -/
  | refused (database : Bool)
  /-- The command has taken effect and is reported as failed. -/
  | lost (database : Bool)

def failure (database : Bool) : Admin.Fault := if database then .sqlAlchemyError else .other

structure World where
  keys : Table Thread Hash Row := {}
  users : List User := []
  drawn : List Text := []
  now : Time := 0

namespace World

/-- The committed rows, as the middleware reads them. -/
def accounts (s : World) : Admin.Accounts := ⟨s.users, s.keys.rows.items.map fun e => e.2.key⟩

def find (s : World) (id : Text) : Option (Hash × Row) :=
  s.keys.rows.items.find? fun e => decide (e.2.key.id = id)

def commit (i : Thread) (s : World) : World := { s with keys := s.keys.commit i }

def rollback (i : Thread) (s : World) : World := { s with keys := s.keys.rollback i }

end World

def NewKey.row (new : NewKey) (id : Text) (now : Time) (i : Thread) : Row where
  key := ⟨id, new.keyHash, new.userId, true⟩
  name := new.name
  keyPrefix := new.keyPrefix
  createdAt := now
  creator := some i

def exec (i : Thread) :
    (c : AnyCmd) → Choice → World → Option (Except Admin.Fault (AnyAns c) × World)
  | .inl (.getUser id), .done, s =>
    some (.ok (s.users.find? fun u => decide (u.id = id)), s)
  | .inl (.selectApiKey h), .done, s =>
    match s.accounts.apiKeys.filter fun k => decide (k.keyHash = h) && k.isActive with
    | [] => some (.ok none, s)
    | [k] => some (.ok (some k), s)
    | _ => some (.error .sqlAlchemyError, s)
  | .inl .closeSession, .done, s => some (.ok (), s.rollback i)
  | .inr .tokenHex, .text t, s => some (.ok t, s)
  | .inr .tokenUrlsafe, .text t, s => some (.ok t, s)
  | .inr (.insert new), .uuid id, s =>
    if id ∈ s.drawn then none
    else match s.keys.current i new.keyHash with
      | some _ => some (.error .sqlAlchemyError, s)
      | none => (s.keys.write i new.keyHash (new.row id s.now i)).map
          fun t => (.ok (), { s with keys := t, drawn := id :: s.drawn })
  | .inr (.refresh h), .done, s =>
    match s.keys.current i h with
    | some row => some (.ok row, s)
    | none => some (.error .sqlAlchemyError, s)
  | .inr (.getKey id), .done, s => some (.ok ((s.find id).map Prod.snd), s)
  | .inr (.deactivate id), .done, s =>
    match s.find id with
    | none => some (.error .sqlAlchemyError, s)
    | some e =>
      match s.keys.current i e.1 with
      | none => some (.error .sqlAlchemyError, s)
      | some row => (s.keys.write i e.1 row.revoke).map fun t => (.ok (), { s with keys := t })
  | .inr .commit, .done, s => some (.ok (), s.commit i)
  | .inr .commit, .lost database, s => some (.error (failure database), s.commit i)
  | c, .refused database, s =>
    if waits c then some (.error (failure database), s) else none
  | _, _, _ => none

/-- Time goes by, and the users change. -/
inductive Event where
  | advance (d : Time)
  | users (us : List User)

def Event.apply : Event → World → World
  | .advance d, s => { s with now := s.now + d }
  | .users us, s => { s with users := us }

/-! ## The routes and the middleware -/

abbrev Prog (α : Type) := Concurrent.Prog AnyCmd AnyAns Admin.Fault α

def await (c : Cmd) : Prog (Ans c) := Concurrent.Prog.issue (Sum.inr c : AnyCmd)

def closeSession : Prog Unit := Concurrent.Prog.issue (Sum.inl .closeSession : AnyCmd)

section

variable (lib : Admin.Libraries)

/-- The raw key, the part of it that is shown, and its hash. -/
def generateApiKey : Prog (Text × Text × Hash) := do
  let keyPrefix ← await .tokenHex
  let secret ← await .tokenUrlsafe
  let raw : Text := ("agw_" : Text) ++ keyPrefix ++ ("_" : Text) ++ secret
  return (raw, keyPrefix, Admin.hashToken lib raw)

def createApiKey (name principal : Text) : Prog Reply := do
  let (raw, keyPrefix, keyHash) ← generateApiKey lib
  await (.insert ⟨name, keyHash, keyPrefix, lib.uuid (Str.ofText principal)⟩)
  await .commit
  let row ← await (.refresh keyHash)
  return .created ⟨row.key.id, row.name, row.keyPrefix, row.key.isActive, row.createdAt, raw⟩

/-- `key.is_active = False` and the flush: a row that was read as revoked is not written
again. -/
def deactivateKey (keyId : Text) (row : Row) : Prog Unit :=
  if row.key.isActive then await (.deactivate keyId) else .ret ()

def revokeApiKey (keyId : Text) : Prog Reply := do
  let key ← await (.getKey keyId)
  match key with
  | none => .raise (.http 404 "API key not found" [])
  | some row => do
    deactivateKey keyId row
    await .commit
    return .noContent

/-- The middleware up to `call_next`. -/
def identify (r : Admin.Request) : Prog Reply := do
  let o ← (Admin.identify lib r).lift
  return .identified o

def serve : Call → Prog Reply
  | .create name principal =>
    Concurrent.Prog.finally_ (createApiKey lib name principal) closeSession
  | .revoke keyId => Concurrent.Prog.finally_ (revokeApiKey keyId) closeSession
  | .request r => identify lib r

def machine (calls : Thread → Call) :
    Machine Thread AnyCmd AnyAns Admin.Fault Reply World Choice Event where
  exec := exec
  env e s := some (e.apply s)
  drop i s := s.rollback i
  boot i := serve lib (calls i)
  again _ _ := none

end

abbrev State := Pool Thread AnyCmd AnyAns Admin.Fault Reply World

/-! ## What every command keeps -/

/-- A row that is committed, or that some transaction has written. -/
def Visible (s : World) (k : Hash) (v : Row) : Prop :=
  s.keys.get? k = some v ∨ ∃ i, (k, v) ∈ s.keys.pending i

/-- Transactions add rows of their own and revoke committed ones, and an identifier
belongs to one row. -/
structure Shaped (s : World) : Prop where
  coherent : s.keys.Coherent
  drafted : ∀ i k v, (k, v) ∈ s.keys.pending i →
    (s.keys.get? k = none ∧ v.creator = some i) ∨ ∃ r, s.keys.get? k = some r ∧ v = r.revoke
  hashed : ∀ k v, Visible s k v → v.key.keyHash = k
  drawn : ∀ k v, Visible s k v → v.key.id ∈ s.drawn
  unique : ∀ k v k' v', Visible s k v → Visible s k' v' → v.key.id = v'.key.id → k = k'

/-- Rows stay, and all that becomes of them is that they are revoked. -/
def Persists (s t : World) : Prop :=
  ∀ k v, s.keys.get? k = some v → ∃ v', t.keys.get? k = some v' ∧ (v' = v ∨ v' = v.revoke)

/-- What the others leave alone of the call `i`. -/
structure Rely (i : Thread) (s t : World) : Prop where
  respects : Table.Respects i s.keys t.keys
  persists : Persists s t

section Commands

variable {s t u : World} {i j : Thread} {k : Hash} {v : Row}

theorem Persists.of_rows (h : ∀ k, t.keys.get? k = s.keys.get? k) : Persists s t :=
  fun k v hv => ⟨v, (h k).trans hv, Or.inl rfl⟩

theorem Persists.trans (hst : Persists s t) (htu : Persists t u) : Persists s u := by
  intro k v hv
  obtain ⟨v', hv', hcase⟩ := hst k v hv
  obtain ⟨v'', hv'', hcase'⟩ := htu k v' hv'
  refine ⟨v'', hv'', ?_⟩
  rcases hcase with rfl | rfl
  · exact hcase'
  · exact Or.inr (hcase'.elim id id)

theorem Rely.refl (i : Thread) (s : World) : Rely i s s := ⟨.refl i s.keys, .of_rows fun _ => rfl⟩

theorem Rely.trans (hst : Rely i s t) (htu : Rely i t u) : Rely i s u :=
  ⟨hst.respects.trans htu.respects, hst.persists.trans htu.persists⟩

/-- A move within the table that makes nothing visible keeps the shape of the state. -/
theorem Shaped.of_visible (hs : Shaped s) (hcoherent : t.keys.Coherent)
    (hdrafted : ∀ i k v, (k, v) ∈ t.keys.pending i →
      (t.keys.get? k = none ∧ v.creator = some i) ∨ ∃ r, t.keys.get? k = some r ∧ v = r.revoke)
    (hvisible : ∀ k v, Visible t k v → Visible s k v) (hdrawn : s.drawn ⊆ t.drawn) : Shaped t where
  coherent := hcoherent
  drafted := hdrafted
  hashed k v hv := hs.hashed k v (hvisible k v hv)
  drawn k v hv := hdrawn (hs.drawn k v (hvisible k v hv))
  unique k v k' v' hv hv' := hs.unique k v k' v' (hvisible k v hv) (hvisible k' v' hv')

/-- What a transaction has drafted stays a draft while others move. -/
theorem drafted_mono (hs : Shaped s) (hst : Rely j s t) (hv : (k, v) ∈ t.keys.pending j) :
    (t.keys.get? k = none ∧ v.creator = some j) ∨ ∃ r, t.keys.get? k = some r ∧ v = r.revoke := by
  rw [hst.respects.pending] at hv
  rw [hst.respects.rows k (hs.coherent j k v hv)]
  exact hs.drafted j k v hv

theorem visible_of_current (hv : s.keys.current i k = some v) : Visible s k v := by
  rw [Table.current] at hv
  cases hl : Dict.lookup k (s.keys.pending i) with
  | none =>
    rw [hl, Option.none_or] at hv
    exact Or.inl hv
  | some w =>
    rw [hl] at hv
    cases hv
    exact Or.inr ⟨i, Dict.mem_of_lookup hl⟩

theorem mem_pending_rollback (hv : (k, v) ∈ (s.keys.rollback i).pending j) :
    j ≠ i ∧ (k, v) ∈ s.keys.pending j := by
  by_cases hij : j = i
  · subst hij
    rw [Table.rollback_pending] at hv
    cases hv
  · rw [Table.rollback_pending_of_ne hij] at hv
    exact ⟨hij, hv⟩

theorem visible_commit (hv : Visible (s.commit i) k v) : Visible s k v := by
  obtain hv | ⟨j, hv⟩ := hv
  · exact visible_of_current ((Table.commit_get? k).symm.trans hv)
  · exact Or.inr ⟨j, (mem_pending_rollback (i := i) hv).2⟩

theorem visible_rollback (hv : Visible (s.rollback i) k v) : Visible s k v :=
  hv.imp id fun ⟨j, hv⟩ => ⟨j, (mem_pending_rollback hv).2⟩

theorem mem_pending_write {T : Table Thread Hash Row} (hT : s.keys.write i k v = some T)
    {k' : Hash} {v' : Row} (hv : (k', v') ∈ T.pending j) :
    (j = i ∧ k' = k ∧ v' = v) ∨ (k', v') ∈ s.keys.pending j := by
  by_cases hij : j = i
  · subst hij
    rw [Table.write_pending hT] at hv
    exact (List.mem_cons.mp hv).imp (fun h => ⟨rfl, Prod.mk.inj h⟩) id
  · rw [Table.write_pending_of_ne hT hij] at hv
    exact Or.inr hv

theorem visible_write {T : Table Thread Hash Row} (hT : s.keys.write i k v = some T)
    {ids : List Text} {k' : Hash} {v' : Row}
    (hv : Visible { s with keys := T, drawn := ids } k' v') :
    (k' = k ∧ v' = v) ∨ Visible s k' v' := by
  obtain hv | ⟨j, hv⟩ := hv
  · exact Or.inr (Or.inl ((Table.write_get? hT k').symm.trans hv))
  · exact (mem_pending_write hT hv).imp And.right fun h => Or.inr ⟨j, h⟩

theorem Shaped.persists_commit (hs : Shaped s) (i : Thread) : Persists s (s.commit i) := by
  intro k v hv
  rw [show (s.commit i).keys.get? k = _ from Table.commit_get? k, Table.current]
  cases hl : Dict.lookup k (s.keys.pending i) with
  | none => exact ⟨v, hv, Or.inl rfl⟩
  | some w =>
    obtain ⟨hnone, -⟩ | ⟨r, hr, rfl⟩ := hs.drafted i k w (Dict.mem_of_lookup hl)
    · rw [hv] at hnone
      cases hnone
    · cases hv.symm.trans hr
      exact ⟨v.revoke, rfl, Or.inr rfl⟩

theorem Shaped.commit (hs : Shaped s) (i : Thread) :
    Shaped (s.commit i) ∧ ∀ j, i ≠ j → Rely j s (s.commit i) := by
  have hrely : ∀ j, i ≠ j → Rely j s (s.commit i) := fun j hij =>
    ⟨hs.coherent.respects_commit hij.symm, hs.persists_commit i⟩
  refine ⟨hs.of_visible hs.coherent.commit (fun j k v hv => ?_) (fun k v => visible_commit)
    (List.Subset.refl _), hrely⟩
  obtain ⟨hij, -⟩ := mem_pending_rollback (show (k, v) ∈ (s.keys.rollback i).pending j from hv)
  exact drafted_mono hs (hrely j hij.symm) hv

theorem Shaped.rollback (hs : Shaped s) (i : Thread) :
    Shaped (s.rollback i) ∧ ∀ j, i ≠ j → Rely j s (s.rollback i) := by
  refine ⟨hs.of_visible hs.coherent.rollback
    (fun j k v hv => hs.drafted j k v (mem_pending_rollback hv).2) (fun k v => visible_rollback)
    (List.Subset.refl _), fun j hij => ⟨Table.respects_rollback hij.symm, .of_rows fun _ => rfl⟩⟩

/-- A transaction writes a row that is new or revokes one. -/
theorem Shaped.write (hs : Shaped s) {T : Table Thread Hash Row} {ids : List Text}
    (hT : s.keys.write i k v = some T)
    (hdraft : (s.keys.get? k = none ∧ v.creator = some i) ∨
      ∃ r, s.keys.get? k = some r ∧ v = r.revoke)
    (hhash : v.key.keyHash = k) (hids : s.drawn ⊆ ids) (hid : v.key.id ∈ ids)
    (hunique : ∀ k' v', Visible s k' v' → v'.key.id = v.key.id → k' = k) :
    Shaped { s with keys := T, drawn := ids } ∧
      ∀ j, i ≠ j → Rely j s { s with keys := T, drawn := ids } := by
  have hrows := Table.write_get? hT
  refine ⟨⟨hs.coherent.write hT, fun j k' v' hv' => ?_, fun k' v' hv' => ?_, fun k' v' hv' => ?_,
    fun k₁ v₁ k₂ v₂ h₁ h₂ heq => ?_⟩, fun j hij => ?_⟩
  · show (T.get? k' = none ∧ _) ∨ ∃ r, T.get? k' = some r ∧ _
    rw [hrows]
    rcases mem_pending_write hT hv' with ⟨rfl, rfl, rfl⟩ | hold
    · exact hdraft
    · exact hs.drafted j k' v' hold
  · rcases visible_write hT hv' with ⟨rfl, rfl⟩ | hold
    · exact hhash
    · exact hs.hashed k' v' hold
  · rcases visible_write hT hv' with ⟨rfl, rfl⟩ | hold
    · exact hid
    · exact hids (hs.drawn k' v' hold)
  · rcases visible_write hT h₁ with ⟨rfl, rfl⟩ | h₁ <;>
      rcases visible_write hT h₂ with ⟨rfl, rfl⟩ | h₂
    · rfl
    · exact (hunique k₂ v₂ h₂ heq.symm).symm
    · exact hunique k₁ v₁ h₁ heq
    · exact hs.unique k₁ v₁ k₂ v₂ h₁ h₂ heq
  · exact ⟨Table.respects_write hT hij.symm, .of_rows hrows⟩

theorem find_some {id : Text} {e : Hash × Row} (h : s.find id = some e) :
    s.keys.get? e.1 = some e.2 ∧ e.2.key.id = id :=
  ⟨Dict.mem_items_iff.mp (List.mem_of_find?_eq_some h),
    of_decide_eq_true (List.find?_some (p := fun e : Hash × Row => decide (e.2.key.id = id)) h)⟩

/-- Whatever a transaction has drafted of a committed row, revoking either is the same. -/
theorem Shaped.revoke_current (hs : Shaped s) {w : Row} (hv : s.keys.get? k = some v)
    (hw : s.keys.current i k = some w) : w.revoke = v.revoke := by
  rw [Table.current] at hw
  cases hl : Dict.lookup k (s.keys.pending i) with
  | none =>
    rw [hl, Option.none_or, hv] at hw
    cases hw
    rfl
  | some w' =>
    rw [hl] at hw
    cases hw
    obtain ⟨hnone, -⟩ | ⟨r, hr, rfl⟩ := hs.drafted i k w (Dict.mem_of_lookup hl)
    · rw [hv] at hnone
      cases hnone
    · cases hv.symm.trans hr
      rfl

/-- Everything a command can do to the state. -/
theorem exec_cases {c : AnyCmd} {ch : Choice} {r : Except Admin.Fault (AnyAns c)} {s' : World}
    (h : exec i c ch s = some (r, s')) :
    s' = s ∨ s' = s.commit i ∨ s' = s.rollback i ∨
    (∃ new id T, c = .inr (.insert new) ∧ id ∉ s.drawn ∧ s.keys.current i new.keyHash = none ∧
      s.keys.write i new.keyHash (new.row id s.now i) = some T ∧
      s' = { s with keys := T, drawn := id :: s.drawn }) ∨
    ∃ id e row T, c = .inr (.deactivate id) ∧ s.find id = some e ∧
      s.keys.current i e.1 = some row ∧ s.keys.write i e.1 row.revoke = some T ∧
      s' = { s with keys := T } := by
  match c with
  | .inr (.insert new) =>
    cases ch with
    | uuid id =>
      simp only [exec] at h
      split at h
      next => cases h
      next hid =>
        split at h
        next =>
          cases h
          exact Or.inl rfl
        next hnone =>
          obtain ⟨T, hT, heq⟩ := Option.map_eq_some_iff.mp h
          cases heq
          exact Or.inr (Or.inr (Or.inr (Or.inl ⟨new, id, T, rfl, hid, hnone, hT, rfl⟩)))
    | refused database =>
      cases h
      exact Or.inl rfl
    | done | text | lost => cases h
  | .inr (.deactivate id) =>
    cases ch with
    | done =>
      simp only [exec] at h
      split at h
      next =>
        cases h
        exact Or.inl rfl
      next e he =>
        split at h
        next =>
          cases h
          exact Or.inl rfl
        next row hrow =>
          obtain ⟨T, hT, heq⟩ := Option.map_eq_some_iff.mp h
          cases heq
          exact Or.inr (Or.inr (Or.inr (Or.inr ⟨id, e, row, T, rfl, he, hrow, hT, rfl⟩)))
    | refused database =>
      cases h
      exact Or.inl rfl
    | text | uuid | lost => cases h
  | .inr .commit =>
    cases ch with
    | done | lost =>
      cases h
      exact Or.inr (Or.inl rfl)
    | refused database =>
      cases h
      exact Or.inl rfl
    | text | uuid => cases h
  | .inl .closeSession =>
    cases ch with
    | done =>
      cases h
      exact Or.inr (Or.inr (Or.inl rfl))
    | text | uuid | refused | lost => cases h
  | .inl (.getUser _) | .inl (.selectApiKey _) | .inl .params | .inl (.handler _)
  | .inr .tokenHex | .inr .tokenUrlsafe | .inr (.refresh _) | .inr (.getKey _) =>
    left
    cases ch <;> simp only [exec, waits] at h <;> grind

/-- What a command does to the others, whatever it is. -/
theorem Shaped.exec (hs : Shaped s) {c : AnyCmd} {ch : Choice} {r : Except Admin.Fault (AnyAns c)}
    {s' : World} (h : exec i c ch s = some (r, s')) : Shaped s' ∧ ∀ j, i ≠ j → Rely j s s' := by
  obtain rfl | rfl | rfl | ⟨new, id, T, rfl, hid, hnone, hT, rfl⟩ |
    ⟨id, e, row, T, rfl, he, hrow, hT, rfl⟩ := exec_cases h
  · exact ⟨hs, fun j _ => .refl j _⟩
  · exact hs.commit i
  · exact hs.rollback i
  · refine hs.write hT (Or.inl ⟨(Option.or_eq_none_iff.mp hnone).2, rfl⟩) rfl
      (List.subset_cons_self _ _) List.mem_cons_self fun k' v' hv' heq => ?_
    have hid' : v'.key.id = id := heq
    exact absurd (hid' ▸ hs.drawn k' v' hv') hid
  · have hvisible := visible_of_current hrow
    obtain ⟨hv, -⟩ := find_some he
    exact hs.write hT (Or.inr ⟨e.2, hv, hs.revoke_current hv hrow⟩) (hs.hashed e.1 row hvisible)
      (List.Subset.refl _) (hs.drawn e.1 row hvisible)
      fun k' v' hv' heq => hs.unique k' v' e.1 row hv' hvisible heq

end Commands

/-! ## What a call leaves behind -/

def Disabled (u : UserId) (us : List User) : Prop := ∀ x ∈ us, x.id = u → x.isActive = false

/-- The key that a request presents. -/
def rawKey (r : Admin.Request) : Text := (r.header "x-api-key").getD []

/-- The request was let in by its key: in one state, which `F` is true of, the key was found
active, and in another its owner was. -/
def Admitted (lib : Admin.Libraries) (F : World → Prop) (r : Admin.Request) (st : Admin.State)
    (s : World) : Prop :=
  ∃ v v' t t', F t ∧ t.keys.get? (Admin.hashToken lib (rawKey r)) = some v ∧
    v.key.isActive = true ∧ F t' ∧
    (∀ u, v.key.userId = some u → ¬Disabled u t'.users) ∧
    s.keys.get? (Admin.hashToken lib (rawKey r)) = some v' ∧ (v' = v ∨ v' = v.revoke) ∧
    st.userId = some (v.key.userId.getD v.key.id) ∧ st.isAdmin = false

structure Ended (lib : Admin.Libraries) (F : World → Prop) (i : Thread) (call : Call)
    (r : Except Admin.Fault Reply) (s : World) : Prop where
  created : ∀ out, r = .ok (.created out) → ("agw_" : Text) <+: out.apiKey ∧ ∃ v,
    s.keys.get? (Admin.hashToken lib out.apiKey) = some v ∧ v.creator = some i ∧ v.key.id = out.id
  revoked : ∀ id, call = .revoke id → r = .ok .noContent → ∃ k v,
    s.keys.get? k = some v ∧ v.key.id = id ∧ v.key.isActive = false
  admitted : ∀ req st, call = .request req → r = .ok (.identified (.ok st)) →
    st.authType = some ("api_key" : Text) → Admitted lib F req st s

/-- What neither the commands nor a crash nor an allowed event makes false. -/
structure Lasting (g : Guard Thread AnyCmd World Choice Event) (F : World → Prop) : Prop where
  exec : ∀ i c ch s (r : Except Admin.Fault (AnyAns c)) s', Shaped s → F s →
    exec i c ch s = some (r, s') → F s'
  crash : ∀ i s, Shaped s → F s → F (s.rollback i)
  env : ∀ e s, g.env e s → F s → F (e.apply s)

section Contract

variable {lib : Admin.Libraries} {calls : Thread → Call} {F : World → Prop}
  {g : Guard Thread AnyCmd World Choice Event} {hF : Lasting g F} {late : Thread → Prop}
  {s t : World} {i : Thread} {k : Hash} {v : Row} {α : Type}

theorem Shaped.event (hs : Shaped s) (e : Event) :
    Shaped (e.apply s) ∧ ∀ j, Rely j s (e.apply s) := by
  cases e <;> exact ⟨⟨hs.coherent, hs.drafted, hs.hashed, hs.drawn, hs.unique⟩,
    fun j => ⟨.refl j s.keys, .of_rows fun _ => rfl⟩⟩

/-- Nothing is asked of the calls that are not late. -/
def contract (lib : Admin.Libraries) (calls : Thread → Call)
    {g : Guard Thread AnyCmd World Choice Event} {F : World → Prop} (hF : Lasting g F)
    (late : Thread → Prop) : Contract (machine lib calls) g where
  I s := Shaped s ∧ F s
  R := Rely
  G i s t := ∀ j, i ≠ j → Rely j s t
  Q i r s := late i → Ended lib F i (calls i) r s
  refl := Rely.refl
  trans _ _ _ _ := Rely.trans
  others _ j _ _ hij _ _ hG := hG j hij
  env e s s' hg hs h := by
    cases h
    exact ⟨⟨(hs.1.event e).1, hF.env e s hg hs.2⟩, (hs.1.event e).2⟩
  crash i s _ hs := ⟨⟨(hs.1.rollback i).1, hF.crash i s hs.1 hs.2⟩, (hs.1.rollback i).2⟩

/-- The rule for one command. -/
theorem wp_issue {c : AnyCmd} {Q : Except Admin.Fault (AnyAns c) → World → Prop}
    (h : ∀ ch r s' t, Shaped s → F s → exec i c ch s = some (r, s') → Rely i s' t → Q r t) :
    (Prog.issue c).wp ((contract lib calls hF late).pact i) Q s := by
  refine Prog.wp_issue ?_
  rintro r s' ⟨ch, -, hs, hexec⟩
  obtain ⟨hs', hrely⟩ := Shaped.exec hs.1 hexec
  exact ⟨⟨hs', hF.exec i c ch s r s' hs.1 hs.2 hexec⟩, hrely,
    fun t _ hst => h ch r s' t hs.1 hs.2 hexec hst⟩

theorem Ended.error {call : Call} {f : Admin.Fault} : Ended lib F i call (.error f) s :=
  ⟨fun _ h => (by cases h), fun _ _ h => (by cases h), fun _ _ _ h => (by cases h)⟩

theorem Ended.mono {call : Call} {r : Except Admin.Fault Reply} (h : Ended lib F i call r s)
    (hst : Persists s t) : Ended lib F i call r t where
  created out hr := by
    obtain ⟨hfront, v, hv, hc, hid⟩ := h.created out hr
    obtain ⟨v', hv', rfl | rfl⟩ := hst _ v hv
    · exact ⟨hfront, v', hv', hc, hid⟩
    · exact ⟨hfront, v.revoke, hv', hc, hid⟩
  revoked id hcall hr := by
    obtain ⟨k, v, hv, hid, hdead⟩ := h.revoked id hcall hr
    obtain ⟨v', hv', rfl | rfl⟩ := hst k v hv
    · exact ⟨k, v', hv', hid, hdead⟩
    · exact ⟨k, v.revoke, hv', hid, rfl⟩
  admitted req st hcall hr hauth := by
    obtain ⟨v, v', t₁, t₂, h₁, hv, hactive, h₂, howner, hv', hcase, hst'⟩ :=
      h.admitted req st hcall hr hauth
    obtain ⟨v'', hv'', hcase'⟩ := hst _ v' hv'
    refine ⟨v, v'', t₁, t₂, h₁, hv, hactive, h₂, howner, hv'', ?_, hst'⟩
    rcases hcase with rfl | rfl
    · exact hcase'
    · exact Or.inr (hcase'.elim id id)

/-- Something ends as `K` says, or with an exception, which promises nothing. -/
def Ok (K : α → World → Prop) : Except Admin.Fault α → World → Prop
  | .ok a, t => K a t
  | .error _, _ => True

theorem wp_then {C : Type} {A : C → Type} {P : Prog.Pact C A Admin.Fault World} {β : Type}
    {p : Concurrent.Prog C A Admin.Fault α} {f : α → Concurrent.Prog C A Admin.Fault β}
    {K : α → World → Prop} {L : β → World → Prop} (hp : p.wp P (Ok K) s)
    (hf : ∀ a t, K a t → (f a).wp P (Ok L) t) : (Prog.bind p f).wp P (Ok L) s :=
  Prog.wp_seq hp (fun _ _ _ => trivial) hf

/-- The rule for one command, where only its success matters. -/
theorem wp_await {c : AnyCmd} {K : AnyAns c → World → Prop}
    (h : ∀ ch a s' t, Shaped s → F s → exec i c ch s = some (.ok a, s') → Rely i s' t → K a t) :
    (Prog.issue c).wp ((contract lib calls hF late).pact i) (Ok K) s := by
  refine wp_issue fun ch r s' t hs hFs hexec hst => ?_
  cases r with
  | ok a => exact h ch a s' t hs hFs hexec hst
  | error f => trivial

/-! ### Issue -/

/-- The call has inserted the row and not committed it. -/
def Inserted (i : Thread) (h : Hash) (s : World) : Prop :=
  ∃ v, s.keys.pending i = [(h, v)] ∧ v.creator = some i

/-- The row of the call is committed, revoked meanwhile or not. -/
def Issued (i : Thread) (h : Hash) (s : World) : Prop :=
  s.keys.pending i = [] ∧ ∃ v, s.keys.get? h = some v ∧ v.creator = some i

theorem Issued.mono {h : Hash} (hs : Issued i h s) (hst : Rely i s t) : Issued i h t := by
  obtain ⟨hp, v, hv, hc⟩ := hs
  obtain ⟨v', hv', rfl | rfl⟩ := hst.persists h v hv
  · exact ⟨hst.respects.pending.trans hp, v', hv', hc⟩
  · exact ⟨hst.respects.pending.trans hp, v.revoke, hv', hc⟩

theorem wp_token {c : Cmd} (hc : c = .tokenHex ∨ c = .tokenUrlsafe) (hs : s.keys.pending i = []) :
    (await c).wp ((contract lib calls hF late).pact i) (Ok fun _ t => t.keys.pending i = []) s := by
  refine wp_await fun ch a s' t _ _ hexec hst => ?_
  rcases hc with rfl | rfl <;> cases ch <;> cases hexec <;> exact hst.respects.pending.trans hs

theorem wp_generateApiKey (hs : s.keys.pending i = []) :
    (generateApiKey lib).wp ((contract lib calls hF late).pact i)
      (Ok fun x t => x.2.2 = Admin.hashToken lib x.1 ∧ ("agw_" : Text) <+: x.1 ∧
        t.keys.pending i = []) s :=
  wp_then (wp_token (Or.inl rfl) hs) fun front _ ht => wp_then (wp_token (Or.inr rfl) ht)
    fun secret _ ht => ⟨rfl, ⟨front ++ (("_" : Text) ++ secret), by simp⟩, ht⟩

theorem wp_insert {new : NewKey} (hs : s.keys.pending i = []) :
    (await (.insert new)).wp ((contract lib calls hF late).pact i)
      (Ok fun _ => Inserted i new.keyHash) s := by
  refine wp_await fun ch a s' t _ _ hexec hst => ?_
  cases ch with
  | uuid id =>
    simp only [exec] at hexec
    split at hexec
    next => cases hexec
    next =>
      split at hexec
      next => cases hexec
      next =>
        obtain ⟨T, hT, heq⟩ := Option.map_eq_some_iff.mp hexec
        cases heq
        refine ⟨new.row id s.now i, ?_, rfl⟩
        rw [hst.respects.pending]
        show T.pending i = _
        rw [Table.write_pending hT, hs]
  | done | text | refused | lost => cases hexec

theorem wp_createApiKey (hs : s.keys.pending i = []) (name principal : Text) :
    (createApiKey lib name principal).wp ((contract lib calls hF late).pact i)
      (Ok fun reply t => ∃ out, reply = .created out ∧ ("agw_" : Text) <+: out.apiKey ∧ ∃ v,
        t.keys.get? (Admin.hashToken lib out.apiKey) = some v ∧ v.creator = some i ∧
          v.key.id = out.id) s := by
  refine wp_then (wp_generateApiKey hs) ?_
  rintro ⟨raw, keyPrefix, keyHash⟩ t ⟨hhash, hfront, ht⟩
  refine wp_then (wp_insert ht) fun _ t ht => ?_
  refine wp_then (K := fun _ => Issued i keyHash) (wp_await fun ch a s' u _ _ hexec hst => ?_)
    fun _ t ht => ?_
  · obtain ⟨v, hp, hc⟩ := ht
    cases ch with
    | done =>
      cases hexec
      refine Issued.mono ⟨Table.rollback_pending, v, ?_, hc⟩ hst
      refine (Table.commit_get? keyHash).trans ?_
      rw [Table.current, hp]
      simp [Dict.lookup]
    | text | uuid | refused | lost => cases hexec
  · refine wp_then (K := fun row t => ∃ v, t.keys.get? keyHash = some v ∧ v.creator = some i ∧
      v.key.id = row.key.id) (wp_await fun ch a s' u _ _ hexec hst => ?_) fun row t ht => ?_
    · obtain ⟨hp, v, hv, hc⟩ := ht
      cases ch with
      | done =>
        simp only [exec, Table.current, hp, Dict.lookup, Option.none_or, hv] at hexec
        cases hexec
        obtain ⟨v', hv', rfl | rfl⟩ := hst.persists keyHash a hv
        · exact ⟨v', hv', hc, rfl⟩
        · exact ⟨a.revoke, hv', hc, rfl⟩
      | text | uuid | refused | lost => cases hexec
    · exact ⟨_, rfl, hfront, hhash ▸ ht⟩

/-! ### Revocation -/

/-- The row is there, and revoked or about to be. -/
def Marked (i : Thread) (id : Text) (s : World) : Prop :=
  ∃ k v, s.keys.get? k = some v ∧ v.key.id = id ∧
    (v.key.isActive = false ∨ (k, v.revoke) ∈ s.keys.pending i)

theorem Marked.mono {id : Text} (hs : Shaped s) (hm : Marked i id s) (hst : Rely i s t) :
    Marked i id t := by
  obtain ⟨k, v, hv, hid, hdead | hp⟩ := hm
  · obtain ⟨v', hv', rfl | rfl⟩ := hst.persists k v hv
    · exact ⟨k, v', hv', hid, Or.inl hdead⟩
    · exact ⟨k, v.revoke, hv', hid, Or.inl rfl⟩
  · refine ⟨k, v, (hst.respects.rows k (hs.coherent i k _ hp)).trans hv, hid, Or.inr ?_⟩
    rw [hst.respects.pending]
    exact hp

/-- A commit revokes what is marked. -/
theorem Marked.commit {id : Text} (hm : Marked i id s) (hs : Shaped s) : ∃ k v,
    (s.commit i).keys.get? k = some v ∧ v.key.id = id ∧ v.key.isActive = false := by
  obtain ⟨k, v, hv, hid, hdead | hp⟩ := hm
  · obtain ⟨v', hv', rfl | rfl⟩ := hs.persists_commit i k v hv
    · exact ⟨k, v', hv', hid, hdead⟩
    · exact ⟨k, v.revoke, hv', hid, rfl⟩
  · obtain ⟨w, hw⟩ := Dict.exists_lookup_of_mem hp
    obtain ⟨hnone, -⟩ | ⟨r, hr, rfl⟩ := hs.drafted i k w (Dict.mem_of_lookup hw)
    · rw [hv] at hnone
      cases hnone
    · cases hv.symm.trans hr
      refine ⟨k, v.revoke, (Table.commit_get? k).trans ?_, hid, rfl⟩
      rw [Table.current, hw, Option.some_or]

theorem wp_deactivateKey {id : Text} {row : Row}
    (hs : ∃ k v, s.keys.get? k = some v ∧ v.key.id = id ∧ (v = row ∨ v = row.revoke)) :
    (deactivateKey id row).wp ((contract lib calls hF late).pact i)
      (Ok fun _ => Marked i id) s := by
  obtain ⟨k, v, hv, hid, hcase⟩ := hs
  rw [deactivateKey]
  split
  next =>
    refine wp_await fun ch a s' t hs _ hexec hst => ?_
    obtain ⟨hs', -⟩ := Shaped.exec hs hexec
    refine Marked.mono hs' ?_ hst
    cases ch with
    | done =>
      simp only [exec] at hexec
      split at hexec
      next => cases hexec
      next e he =>
        split at hexec
        next => cases hexec
        next w hw =>
          obtain ⟨T, hT, heq⟩ := Option.map_eq_some_iff.mp hexec
          cases heq
          obtain ⟨hv', hid'⟩ := find_some he
          refine ⟨e.1, e.2, (Table.write_get? hT e.1).trans hv', hid', Or.inr ?_⟩
          rw [show _ = _ from Table.write_pending hT, hs.revoke_current hv' hw]
          exact List.mem_cons_self
    | text | uuid | refused | lost => cases hexec
  next hdead =>
    refine ⟨k, v, hv, hid, Or.inl ?_⟩
    rcases hcase with rfl | rfl
    · simpa using hdead
    · rfl

theorem wp_revokeApiKey (id : Text) :
    (revokeApiKey id).wp ((contract lib calls hF late).pact i)
      (Ok fun reply t => reply = .noContent ∧ ∃ k v, t.keys.get? k = some v ∧ v.key.id = id ∧
        v.key.isActive = false) s := by
  refine wp_then (K := fun key t => ∀ row, key = some row → ∃ k v, t.keys.get? k = some v ∧
    v.key.id = id ∧ (v = row ∨ v = row.revoke)) (wp_await fun ch a s' t _ _ hexec hst => ?_)
    fun key t ht => ?_
  · intro row hrow
    cases ch with
    | done =>
      cases hexec
      obtain ⟨e, he, rfl⟩ := Option.map_eq_some_iff.mp hrow
      obtain ⟨hv, hid⟩ := find_some he
      obtain ⟨v', hv', hcase⟩ := hst.persists e.1 e.2 hv
      refine ⟨e.1, v', hv', ?_, hcase⟩
      rcases hcase with rfl | rfl <;> exact hid
    | text | uuid | refused | lost => cases hexec
  · cases key with
    | none => trivial
    | some row =>
      refine wp_then (wp_deactivateKey (ht row rfl)) fun _ t ht => ?_
      refine wp_then (K := fun _ t => ∃ k v, t.keys.get? k = some v ∧ v.key.id = id ∧
        v.key.isActive = false) (wp_await fun ch a s' u hs _ hexec hst => ?_)
        fun _ t ht => ⟨rfl, ht⟩
      cases ch with
      | done =>
        cases hexec
        obtain ⟨k, v, hv, hid, hdead⟩ := ht.commit hs
        obtain ⟨v', hv', rfl | rfl⟩ := hst.persists k v hv
        · exact ⟨k, v', hv', hid, hdead⟩
        · exact ⟨k, v.revoke, hv', hid, rfl⟩
      | text | uuid | refused | lost => cases hexec

/-! ### Requests -/

/-- What the contract means for the commands of the middleware. -/
def inner (lib : Admin.Libraries) (calls : Thread → Call)
    {g : Guard Thread AnyCmd World Choice Event} {F : World → Prop} (hF : Lasting g F)
    (late : Thread → Prop) (i : Thread) : Prog.Pact Admin.Cmd Admin.Ans Admin.Fault World where
  run c := ((contract lib calls hF late).pact i).run (.inl c)
  I := ((contract lib calls hF late).pact i).I
  R := Rely i
  G s t := ∀ j, i ≠ j → Rely j s t

theorem inner_run {c : Admin.Cmd} {r : Except Admin.Fault (Admin.Ans c)} {s' : World}
    (h : (inner lib calls hF late i).run c s r s') :
    ∃ ch, Shaped s ∧ F s ∧ exec i (.inl c) ch s = some (r, s') ∧
      (Shaped s' ∧ F s') ∧ ∀ j, i ≠ j → Rely j s s' := by
  obtain ⟨ch, -, hs, hexec⟩ := h
  obtain ⟨hs', hrely⟩ := Shaped.exec hs.1 hexec
  exact ⟨ch, hs.1, hs.2, hexec, ⟨hs', hF.exec i (.inl c) ch s r s' hs.1 hs.2 hexec⟩, hrely⟩

/-- The middleware among the commands of everybody. -/
theorem wp_lifted {p : Admin.Prog α} {Q : Except Admin.Fault α → World → Prop}
    (hp : p.wp (inner lib calls hF late i) Q s) :
    p.lift.wp ((contract lib calls hF late).pact i) Q s := by
  have hI : ∀ s, ((contract lib calls hF late).pact i).I s ↔
      (inner lib calls hF late i).I (id s) := fun _ => Iff.rfl
  refine Prog.wp_mono (fun r t hr => hr.1) (Prog.wp_lift (L := fun _ => True) hI (fun _ _ h => h)
    (fun _ _ _ _ => trivial) (fun c s r s' _ hrun => ⟨hrun, trivial, id⟩) hp trivial)

theorem wp_lookup {c : Admin.Cmd} {K : Admin.Ans c → World → Prop}
    (h : ∀ ch a s' t, Shaped s → F s → exec i (.inl c) ch s = some (.ok a, s') → Rely i s' t →
      K a t) : (Admin.await c).wp (inner lib calls hF late i) (Ok K) s := by
  refine Prog.wp_issue fun r s' hr => ?_
  obtain ⟨ch, hs, hFs, hexec, hI, hG⟩ := inner_run hr
  refine ⟨hI, hG, fun t _ hst => ?_⟩
  cases r with
  | ok a => exact h ch a s' t hs hFs hexec hst
  | error f => trivial

/-- The key was found active in a state that `F` is true of. -/
def Found (F : World → Prop) (h : Hash) (key : Admin.ApiKey) (s : World) : Prop :=
  ∃ v v' t, v.key = key ∧ F t ∧ t.keys.get? h = some v ∧ v.key.isActive = true ∧
    s.keys.get? h = some v' ∧ (v' = v ∨ v' = v.revoke)

theorem Found.mono {h : Hash} {key : Admin.ApiKey} (hs : Found F h key s) (hst : Persists s t) :
    Found F h key t := by
  obtain ⟨v, v', t₁, hkey, hFt, hv, hactive, hv', hcase⟩ := hs
  obtain ⟨v'', hv'', hcase'⟩ := hst h v' hv'
  refine ⟨v, v'', t₁, hkey, hFt, hv, hactive, hv'', ?_⟩
  rcases hcase with rfl | rfl
  · exact hcase'
  · exact Or.inr (hcase'.elim id id)

theorem wp_selectApiKey (h : Hash) :
    (Admin.await (.selectApiKey h)).wp (inner lib calls hF late i)
      (Ok fun key t => ∀ k, key = some k → Found F h k t) s := by
  refine wp_lookup fun ch a s' t hs hFs hexec hst => ?_
  rintro k rfl
  cases ch with
  | done =>
    simp only [exec] at hexec
    split at hexec
    next => cases hexec
    next k' hfilter =>
      cases hexec
      have hmem : k ∈ s.accounts.apiKeys.filter fun k => decide (k.keyHash = h) && k.isActive := by
        rw [hfilter]
        exact List.mem_singleton_self k
      obtain ⟨hmem, hkey⟩ := List.mem_filter.mp hmem
      obtain ⟨⟨h', v⟩, hv, rfl⟩ := List.mem_map.mp hmem
      have hv' : s.keys.get? h' = some v := Dict.mem_items_iff.mp hv
      have hhash : v.key.keyHash = h ∧ v.key.isActive = true := by simpa using hkey
      have hh : h' = h := (hs.hashed h' v (Or.inl hv')).symm.trans hhash.1
      subst hh
      exact Found.mono ⟨v, v, s, rfl, hFs, hv', hhash.2, hv', Or.inl rfl⟩ hst.persists
    next => cases hexec
  | text | uuid | refused | lost => cases hexec

/-- What a successful `_verify_api_key` tells. -/
def Verified (F : World → Prop) (h : Hash) (principal : Text) (s : World) : Prop :=
  ∃ key t, Found F h key s ∧ F t ∧ (∀ u, key.userId = some u → ¬Disabled u t.users) ∧
    principal = key.userId.getD key.id

theorem Verified.mono {h : Hash} {principal : Text} (hs : Verified F h principal s)
    (hst : Persists s t) : Verified F h principal t := by
  obtain ⟨key, t₁, hfound, hrest⟩ := hs
  exact ⟨key, t₁, hfound.mono hst, hrest⟩

theorem wp_verifyApiKey (raw : Text) :
    (Admin.verifyApiKey lib raw).wp (inner lib calls hF late i)
      (Ok fun o t => ∀ principal, o = some principal →
        Verified F (Admin.hashToken lib raw) principal t) s := by
  refine wp_then (wp_selectApiKey _) fun found t ht => ?_
  cases found with
  | none => exact fun _ h => (by cases h)
  | some key =>
    have hfound := ht key rfl
    cases hid : key.userId with
    | none =>
      simp only [hid]
      rintro principal ⟨⟩
      obtain ⟨v, v', t₁, hkey, hFt, hrest⟩ := hfound
      exact ⟨key, t₁, ⟨v, v', t₁, hkey, hFt, hrest⟩, hFt, by simp [hid], by simp [hid]⟩
    | some u =>
      simp only [hid]
      refine wp_then (K := fun user t => ∀ x, user = some x → x.isActive = true →
        Verified F (Admin.hashToken lib raw) u t) (wp_lookup fun ch a s' w _ hFs hexec hst => ?_)
        fun user t ht => ?_
      · intro x hx hactive
        cases ch with
        | done =>
          simp only [exec] at hexec
          cases hexec
          refine ⟨key, t, hfound.mono hst.persists, hFs, fun u' hu' hdisabled => ?_, by simp [hid]⟩
          rw [hid] at hu'
          cases hu'
          have hxu : x.id = u :=
            of_decide_eq_true (List.find?_some (p := fun y : User => decide (y.id = u)) hx)
          rw [hdisabled x (List.mem_of_find?_eq_some hx) hxu] at hactive
          cases hactive
        | text | uuid | refused | lost => cases hexec
      · cases user with
        | none => exact fun _ h => (by cases h)
        | some x =>
          intro principal hprincipal
          by_cases hactive : x.isActive = true
          · rw [if_pos hactive] at hprincipal
            cases hprincipal
            exact ht x rfl hactive
          · rw [if_neg hactive] at hprincipal
            cases hprincipal

/-- The handler of `inSession` only ever turns a request down. -/
theorem wp_inSession {body : Admin.Prog (Option Text)} {K : Option Text → World → Prop}
    (hK : ∀ a s t, K a s → Persists s t → K a t)
    (hbody : body.wp (inner lib calls hF late i) (Ok K) s) :
    (Admin.inSession body Admin.apiKeyState).wp (inner lib calls hF late i)
      (Ok fun o t => ∀ st, o = .ok st → ∃ a, K a t ∧ Admin.apiKeyState a = .ok st) s := by
  refine Prog.wp_except (Prog.wp_mono (fun r t hr => ?_) (wp_then (K := K) (L := fun o t =>
    ∀ st, o = .ok st → ∃ a, K a t ∧ Admin.apiKeyState a = .ok st) ?_ fun a t ht st hst =>
      ⟨a, ht, hst⟩))
  · cases r with
    | ok o => exact hr
    | error f =>
      cases f with
      | sqlAlchemyError => exact fun _ h => (by cases h)
      | http _ _ _ | other => trivial
  · refine Prog.wp_finally (Prog.wp_mono (fun r t hr => ?_) hbody)
    refine Prog.wp_issue fun r' s' hrun => ?_
    obtain ⟨ch, hs, hFs, hexec, hI, hG⟩ := inner_run hrun
    refine ⟨hI, hG, fun u _ hst => ?_⟩
    cases ch with
    | done =>
      cases hexec
      cases r with
      | ok a => exact hK a t u hr hst.persists
      | error f => trivial
    | text | uuid | refused | lost => cases hexec

theorem sure_inSession {body : Admin.Prog α} {f : α → Except Admin.Response Admin.State} :
    Prog.Sure (fun _ _ => True) (Admin.inSession body f)
      fun r => ∀ st, r = .ok (.ok st) → ∃ a, f a = .ok st := by
  refine Prog.sure_except.mpr (Prog.sure_bind.mpr ((Prog.sure_trivial _).mono fun r _ => ?_))
  cases r with
  | ok a => exact fun st hst => ⟨a, Except.ok.inj hst⟩
  | error f =>
    cases f with
    | sqlAlchemyError => exact fun _ h => (by cases h)
    | http _ _ _ | other => exact fun _ h => (by cases h)

/-- Whoever has a token is not let in by a key. -/
theorem sure_withToken (lib : Admin.Libraries) (token : Text) :
    Prog.Sure (fun _ _ => True) (Admin.withToken lib token)
      fun r => ∀ st, r = .ok (.ok st) → st.authType ≠ some ("api_key" : Text) := by
  rw [Admin.withToken]
  split
  next => exact fun _ h => (by cases h)
  next => exact fun _ h => (by cases h)
  next =>
    split
    next => exact fun _ h => (by cases h)
    next => exact fun _ h => (by cases h)
    next =>
      refine sure_inSession.mono fun r hr st hst => ?_
      obtain ⟨user, huser⟩ := hr st hst
      rw [Admin.jwtState.eq_def] at huser
      split at huser
      next =>
        split at huser
        next =>
          cases huser
          exact fun h => absurd (Option.some.inj h) (by decide)
        next => cases huser
      next => cases huser

theorem wp_identify (req : Admin.Request) :
    (Admin.identify lib req).wp (inner lib calls hF late i)
      (Ok fun o t => ∀ st, o = .ok st → st.authType = some ("api_key" : Text) →
        Admitted lib F req st t) s := by
  rw [Admin.identify]
  split
  next =>
    rintro st ⟨⟩ h
    cases h
  next =>
    split
    next token _ =>
      refine Prog.wp_mono (fun r t hr => ?_) (Prog.wp_of_sure (sure_withToken lib token)
        fun c s r s' hrun => ⟨trivial, ?_⟩)
      · cases r with
        | ok o => exact fun st hst hauth => absurd hauth (hr st (congrArg Except.ok hst))
        | error f => trivial
      · obtain ⟨ch, -, -, -, hI, hG⟩ := inner_run hrun
        exact ⟨hI, hG⟩
    next =>
      dsimp only
      split
      next =>
        refine Prog.wp_mono (fun r t hr => ?_) (wp_inSession (K := fun o t => ∀ principal,
          o = some principal → Verified F (Admin.hashToken lib (rawKey req)) principal t)
          (fun a s t h hst principal hp => (h principal hp).mono hst) (wp_verifyApiKey _))
        cases r with
        | ok o =>
          intro st hst hauth
          obtain ⟨found, hfound, hstate⟩ := hr st hst
          cases found with
          | none => cases hstate
          | some principal =>
            cases hstate
            obtain ⟨key, t₂, ⟨v, v', t₁, rfl, hFt, hv, hactive, hv', hcase⟩, hFt', howner, rfl⟩ :=
              hfound principal rfl
            exact ⟨v, v', t₁, t₂, hFt, hv, hactive, hFt', howner, hv', hcase, rfl, rfl⟩
        | error f => trivial
      next =>
        split
        next => exact fun _ h => (by cases h)
        next =>
          rintro st ⟨⟩ h
          cases h

/-- The session is closed after the handler, and what was committed stays. -/
theorem wp_closed {p : Prog Reply} {K : Reply → World → Prop}
    (hK : ∀ a s t, K a s → Persists s t → K a t)
    (hp : p.wp ((contract lib calls hF late).pact i) (Ok K) s) :
    (Prog.finally_ p closeSession).wp ((contract lib calls hF late).pact i) (Ok K) s := by
  refine Prog.wp_finally (Prog.wp_mono (fun r t hr => ?_) hp)
  refine wp_issue fun ch r' s' u _ _ hexec hst => ?_
  cases ch with
  | done =>
    cases hexec
    cases r with
    | ok a => exact hK a t u hr hst.persists
    | error f => trivial
  | text | uuid | refused | lost => cases hexec

/-- What is left behind by a call that succeeds, which is all that is promised. -/
theorem wp_ended {p : Prog Reply} (hp : p.wp ((contract lib calls hF late).pact i)
    (Ok fun reply t => Ended lib F i (calls i) (.ok reply) t) s) :
    p.wp ((contract lib calls hF late).pact i) (Ended lib F i (calls i)) s := by
  refine Prog.wp_mono (fun r t hr => ?_) hp
  cases r with
  | ok reply => exact hr
  | error f => exact .error

theorem wp_serve (hs : ∀ name principal, calls i = .create name principal →
      s.keys.pending i = []) :
    (serve lib (calls i)).wp ((contract lib calls hF late).pact i)
      (Ended lib F i (calls i)) s := by
  refine wp_ended ?_
  cases hcall : calls i with
  | create name principal =>
    refine wp_closed (fun a s t ha hst => ha.mono hst)
      (Prog.wp_mono (fun r t hr => ?_) (wp_createApiKey (hs name principal hcall) name principal))
    cases r with
    | error f => trivial
    | ok reply =>
      obtain ⟨out, rfl, hrow⟩ := hr
      refine ⟨fun out' h => ?_, fun _ h => (by cases h), fun _ _ h => (by cases h)⟩
      cases h
      exact hrow
  | revoke keyId =>
    refine wp_closed (fun a s t ha hst => ha.mono hst)
      (Prog.wp_mono (fun r t hr => ?_) (wp_revokeApiKey keyId))
    cases r with
    | error f => trivial
    | ok reply =>
      obtain ⟨rfl, hrow⟩ := hr
      refine ⟨fun _ h => (by cases h), fun id h _ => ?_, fun _ _ h => (by cases h)⟩
      cases h
      exact hrow
  | request req =>
    refine wp_then (K := fun o t => ∀ st, o = .ok st → st.authType = some ("api_key" : Text) →
      Admitted lib F req st t) (wp_lifted (wp_identify req)) fun o t ht => ?_
    refine ⟨fun _ h => (by cases h), fun _ h => (by cases h), fun req' st h hst hauth => ?_⟩
    cases h
    cases hst
    exact ht st rfl hauth

end Contract

/-! ## All runs -/

/-- The key of this hash is revoked, or belongs to someone banned, and the banned are
disabled. -/
def Closed (banned : UserId → Prop) (h : Hash) (s : World) : Prop :=
  (∃ v, s.keys.get? h = some v ∧
    (v.key.isActive = false ∨ ∃ u, v.key.userId = some u ∧ banned u)) ∧
  ∀ u, banned u → Disabled u s.users

section Runs

variable {lib : Admin.Libraries} {calls : Thread → Call} {banned : UserId → Prop} {h : Hash}
  {g : Guard Thread AnyCmd World Choice Event} {s t s₀ : World} {p q : State}

theorem Closed.persists (hs : Closed banned h s) (hst : Persists s t) (hu : t.users = s.users) :
    Closed banned h t := by
  obtain ⟨⟨v, hv, hcase⟩, hdisabled⟩ := hs
  refine ⟨?_, hu ▸ hdisabled⟩
  obtain ⟨v', hv', rfl | rfl⟩ := hst h v hv
  · exact ⟨v', hv', hcase⟩
  · exact ⟨v.revoke, hv', Or.inl rfl⟩

theorem lasting_true (g : Guard Thread AnyCmd World Choice Event) : Lasting g fun _ => True :=
  ⟨fun _ _ _ _ _ _ _ _ _ => trivial, fun _ _ _ _ => trivial, fun _ _ _ _ => trivial⟩

/-- Nobody has a transaction open, and the rows are where they belong and nobody's. -/
structure World.Fresh (s : World) : Prop extends Shaped s where
  pending : ∀ i, s.keys.pending i = []
  foreign : ∀ k v, s.keys.get? k = some v → v.creator = none

/-- The commands that a call may issue: keys are only inserted by the call that issues them. -/
def MayIssue (lib : Admin.Libraries) (calls : Thread → Call) (i : Thread) (c : AnyCmd) : Prop :=
  ∀ new, c = .inr (.insert new) → ∃ principal, calls i = .create new.name principal ∧
    new.userId = lib.uuid (Str.ofText principal)

theorem issues_serve (i : Thread) : (serve lib (calls i)).Issues (MayIssue lib calls i) := by
  have hclose : closeSession.Issues (MayIssue lib calls i) := .issue fun _ h => (by cases h)
  cases hcall : calls i with
  | create name principal =>
    refine .finally_ (.bind (.bind (.issue fun _ h => (by cases h)) fun _ =>
      .bind (.issue fun _ h => (by cases h)) fun _ => trivial) fun x => ?_) hclose
    refine .bind (.issue fun new h => ?_) fun _ => .bind (.issue fun _ h => (by cases h)) fun _ =>
      .bind (.issue fun _ h => (by cases h)) fun _ => trivial
    cases h
    exact ⟨principal, hcall, rfl⟩
  | revoke keyId =>
    refine .finally_ (.bind (.issue fun _ h => (by cases h)) fun key => ?_) hclose
    cases key with
    | none => trivial
    | some row =>
      refine .bind ?_ fun _ => .bind (.issue fun _ h => (by cases h)) fun _ => trivial
      rw [deactivateKey]
      split
      next => exact .issue fun _ h => (by cases h)
      next => trivial
  | request req =>
    refine .bind (.lift (Admin.issues_identify.mono fun c _ new h => ?_)) fun _ => trivial
    cases h

/-- A row of the beginning, or one that a call has issued. -/
def Origin (lib : Admin.Libraries) (calls : Thread → Call) (s₀ : World) (k : Hash) (v : Row) :
    Prop :=
  (∃ v₀, s₀.keys.get? k = some v₀ ∧ (v = v₀ ∨ v = v₀.revoke)) ∨
  ∃ i principal, v.creator = some i ∧ calls i = .create v.name principal ∧
    v.key.userId = lib.uuid (Str.ofText principal)

theorem Origin.revoke {k : Hash} {v : Row} (hv : Origin lib calls s₀ k v) :
    Origin lib calls s₀ k v.revoke := by
  obtain ⟨v₀, hv₀, rfl | rfl⟩ | hissued := hv
  · exact Or.inl ⟨v, hv₀, Or.inr rfl⟩
  · exact Or.inl ⟨v₀, hv₀, Or.inr rfl⟩
  · exact Or.inr hissued

theorem origin_of_reach (h₀ : s₀.Fresh)
    (hq : (machine lib calls).Reach g ((machine lib calls).start s₀) q) {k : Hash} {v : Row}
    (hv : q.state.keys.get? k = some v) : Origin lib calls s₀ k v := by
  refine (hq.issues_invariant (S := MayIssue lib calls)
    (J := fun s => ∀ k v, Visible s k v → Origin lib calls s₀ k v) issues_serve
    (fun _ _ _ h => (by cases h)) (fun i c ch s r s' hc hJ hexec => ?_) (fun i s hJ k v hv => ?_)
    (fun e s s' hJ h => ?_) fun k v hv => ?_) k v (Or.inl hv)
  · obtain rfl | rfl | rfl | ⟨new, id, T, rfl, -, -, hT, rfl⟩ |
      ⟨id, e, row, T, rfl, -, hrow, hT, rfl⟩ := exec_cases hexec
    · exact hJ
    · exact fun k v hv => hJ k v (visible_commit hv)
    · exact fun k v hv => hJ k v (visible_rollback hv)
    · intro k v hv
      obtain ⟨rfl, rfl⟩ | hold := visible_write hT hv
      · obtain ⟨principal, hcall, huser⟩ := hc new rfl
        exact Or.inr ⟨i, principal, rfl, hcall, huser⟩
      · exact hJ k v hold
    · intro k v hv
      obtain ⟨rfl, rfl⟩ | hold :=
        visible_write hT (show Visible { s with keys := T, drawn := s.drawn } k v from hv)
      · exact (hJ e.1 row (visible_of_current hrow)).revoke
      · exact hJ k v hold
  · exact hJ k v (visible_rollback hv)
  · cases h
    cases e <;> exact hJ
  · obtain hv | ⟨i, hv⟩ := hv
    · exact Or.inl ⟨v, hv, Or.inl rfl⟩
    · rw [show _ = _ from h₀.pending i] at hv
      cases hv

theorem reach_ended (h₀ : s₀.Fresh)
    (hq : (machine lib calls).Reach Guard.any ((machine lib calls).start s₀) q) :
    Shaped q.state ∧ ∀ i r, q.prog i = some (Prog.ofExcept r) →
      Ended lib (fun _ => True) i (calls i) r q.state := by
  obtain ⟨hI, hkept⟩ := (contract lib calls (lasting_true Guard.any) fun _ => True).sound
    ⟨h₀.toShaped, trivial⟩ (fun i t _ hst => Prog.wp_mono (fun r u hr _ => hr)
      (wp_serve fun _ _ _ => hst.respects.pending.trans (h₀.pending i)))
    (fun _ _ _ _ h => (by cases h)) hq
  refine ⟨hI.1, fun i r hr => ?_⟩
  have hwp := hkept i _ hr q.state hI (Rely.refl i q.state)
  cases r with
  | ok a => exact hwp trivial
  | error f => exact hwp trivial

end Runs

/-! ## A key is issued, used and revoked -/

section Mock

def mockLibraries : Admin.Libraries where
  sha256 b := 'h' :: latin1 b
  jwtDecode _ := .error .jwtError
  uuid s := if s = Str.ofText "5f0c" then some "5f0c" else none

def mockCalls : Thread → Call
  | 0 => .create "ci" "5f0c"
  | 1 => .request ⟨"/api", [("x-api-key", "agw_p_s")]⟩
  | _ => .revoke "00"

def mockWorld : World := { users := [⟨"5f0c", "a@b.c", "h", true, true⟩] }

theorem mockWorld_fresh : mockWorld.Fresh where
  coherent := Table.coherent_empty
  drafted _ _ _ h := by cases h
  hashed _ _ h := by rcases h with h | ⟨_, h⟩ <;> cases h
  drawn _ _ h := by rcases h with h | ⟨_, h⟩ <;> cases h
  unique _ _ _ _ h := by rcases h with h | ⟨_, h⟩ <;> cases h
  pending _ := rfl
  foreign _ _ h := by cases h

def mockActs (i : Thread) (cs : List Choice) : List (Label Thread Choice Event) :=
  cs.map fun c => .act i c

def mockIssue : List (Label Thread Choice Event) :=
  mockActs 0 [.text "p", .text "s", .uuid "00", .done, .done, .done]

end Mock

/-! ## A key works until it is revoked -/

/-- What the middleware is answered while the database stays as it is in `s`: the command
fails, or the answer is that of the committed rows. -/
def Answers (s : World) (c : Admin.Cmd) (r : Except Admin.Fault (Admin.Ans c)) : Prop :=
  (∀ a, r = .ok a → s.accounts.Answers c a) ∧ ∀ f, r = .error f → ∃ database, f = failure database

/-- The commands of the middleware are answered so. -/
theorem answers_exec {i : Thread} {c : Admin.Cmd} {ch : Choice} {s s' : World}
    {r : Except Admin.Fault (Admin.Ans c)} (h : exec i (.inl c) ch s = some (r, s')) :
    Answers s c r := by
  have hfailed : ∀ database, r = .error (failure database) → Answers s c r := by
    rintro database rfl
    exact ⟨fun a ha => (by cases ha), fun f hf => ⟨database, (Except.error.inj hf).symm⟩⟩
  have hanswer : ∀ a, s.accounts.Answers c a → r = .ok a → Answers s c r := by
    rintro a ha rfl
    exact ⟨fun b hb => Except.ok.inj hb ▸ ha, fun f hf => (by cases hf)⟩
  cases c with
  | getUser id =>
    cases ch <;> simp only [exec, waits] at h <;> cases h
    · exact hanswer _ rfl rfl
    · exact hfailed _ rfl
  | selectApiKey k =>
    cases ch with
    | done =>
      simp only [exec] at h
      split at h
      next hfilter =>
        cases h
        exact hanswer none hfilter rfl
      next key hfilter =>
        cases h
        exact hanswer (some key) hfilter rfl
      next =>
        cases h
        exact hfailed true rfl
    | refused database =>
      cases h
      exact hfailed database rfl
    | text | uuid | lost => cases h
  | closeSession =>
    cases ch with
    | done =>
      cases h
      exact hanswer () trivial rfl
    | text | uuid | refused | lost => cases h
  | params | handler _ =>
    cases ch with
    | refused database =>
      cases h
      exact hfailed database rfl
    | done | text | uuid | lost => cases h

section Admits

variable {lib : Admin.Libraries} {s : World} {v : Row}

/-- The middleware has looked at the row and at its owner, if the database did not fail. -/
theorem sure_verifyApiKey {raw : Text} (hv : s.keys.get? (Admin.hashToken lib raw) = some v)
    (hhash : v.key.keyHash = Admin.hashToken lib raw) (hactive : v.key.isActive = true)
    (howner : ∀ u, v.key.userId = some u →
      ∃ x, (s.users.find? fun y => decide (y.id = u)) = some x ∧ x.isActive = true) :
    Prog.Sure (Answers s) (Admin.verifyApiKey lib raw) fun r =>
      (∃ database, r = .error (failure database)) ∨
        r = .ok (some (v.key.userId.getD v.key.id)) := by
  refine Prog.sure_bind.mpr (Prog.sure_issue.mpr fun r hr => ?_)
  cases r with
  | error f =>
    obtain ⟨database, rfl⟩ := hr.2 f rfl
    exact Or.inl ⟨database, rfl⟩
  | ok found =>
    have hfilter := hr.1 found rfl
    have hmem : v.key ∈ found.toList := by
      rw [← show _ = found.toList from hfilter]
      refine List.mem_filter.mpr ⟨List.mem_map.mpr ⟨(_, v), Dict.mem_items_iff.mpr hv, rfl⟩, ?_⟩
      simp [hhash, hactive]
    obtain rfl : found = some v.key := by simpa using hmem
    cases hid : v.key.userId with
    | none =>
      simp only [hid]
      exact Or.inr rfl
    | some u =>
      simp only [hid]
      obtain ⟨x, hx, hxa⟩ := howner u hid
      refine Prog.sure_bind.mpr (Prog.sure_issue.mpr fun r hr => ?_)
      cases r with
      | error f =>
        obtain ⟨database, rfl⟩ := hr.2 f rfl
        exact Or.inl ⟨database, rfl⟩
      | ok user =>
        obtain rfl : user = some x := Eq.trans (hr.1 user rfl) hx
        right
        simp [hxa]

/-- An issued key opens the gateway for its owner: while its row and its owner are active, a
request that presents it and no token is let in with the identity of the owner, unless the
database fails. -/
theorem issued_key_admits (lib : Admin.Libraries) (calls : Thread → Call) (s₀ : World)
    (h₀ : s₀.Fresh) (q : State)
    (hq : (machine lib calls).Reach Guard.any ((machine lib calls).start s₀) q) (i : Thread)
    (out : APIKeyCreated) (hi : q.prog i = some (.ret (.created out))) (req : Admin.Request)
    (hpublic : Admin.isPublic req.path = false) (htoken : Admin.bearerToken req = none)
    (hraw : rawKey req = out.apiKey)
    (hlive : ∀ k v, q.state.keys.get? k = some v → v.key.id = out.id → v.key.isActive = true ∧
      ∀ u, v.key.userId = some u → ∃ x,
        (q.state.users.find? fun y => decide (y.id = u)) = some x ∧ x.isActive = true) :
    Prog.Sure (Answers q.state) (Admin.identify lib req) fun r =>
      r = .error .other ∨ r = .ok (.error Admin.unavailable) ∨
      ∃ st name principal, r = .ok (.ok st) ∧ calls i = .create name principal ∧
        st.userId = some ((lib.uuid (Str.ofText principal)).getD out.id) := by
  obtain ⟨hshaped, hended⟩ := reach_ended h₀ hq
  obtain ⟨⟨rest, hfront⟩, v, hv, hc, hid⟩ := (hended i (.ok (.created out)) hi).created out rfl
  have hne : rawKey req ≠ [] := by
    rw [hraw, ← hfront]
    simp
  obtain ⟨hactive, howner⟩ := hlive _ v hv hid
  have horigin : ∃ name principal, calls i = .create name principal ∧
      v.key.userId = lib.uuid (Str.ofText principal) := by
    obtain ⟨v₀, hv₀, hcase⟩ | ⟨i', principal, hc', hcall, huser⟩ := origin_of_reach h₀ hq hv
    · have hnone := h₀.foreign _ v₀ hv₀
      have hcreator : v.creator = v₀.creator := by rcases hcase with rfl | rfl <;> rfl
      rw [hcreator, hnone] at hc
      cases hc
    · cases hc.symm.trans hc'
      exact ⟨v.name, principal, hcall, huser⟩
  obtain ⟨name, principal, hcall, huser⟩ := horigin
  rw [← hraw] at hv
  rw [Admin.identify, hpublic, htoken]
  simp only [Bool.false_eq_true, if_false]
  rw [if_pos (show (req.header "x-api-key").getD [] ≠ [] from hne)]
  refine Prog.sure_except.mpr (Prog.sure_bind.mpr (Prog.Sure.finally_ ((sure_verifyApiKey hv
    (hshaped.hashed _ v (Or.inl hv)) hactive howner).mono fun r hr => ?_)))
  refine Prog.sure_issue.mpr fun r' hr' => ?_
  have hfails : ∀ database, Prog.Sure (Answers q.state)
      ((Admin.databaseError (failure database)).getD (.raise (failure database))) fun r =>
        r = .error .other ∨ r = .ok (.error Admin.unavailable) ∨
        ∃ st name principal, r = .ok (.ok st) ∧ calls i = .create name principal ∧
          st.userId = some ((lib.uuid (Str.ofText principal)).getD out.id) := by
    intro database
    cases database
    · exact Or.inl rfl
    · exact Or.inr (Or.inl rfl)
  cases r' with
  | error f =>
    obtain ⟨database, rfl⟩ := hr'.2 f rfl
    exact hfails database
  | ok _ =>
    obtain ⟨database, rfl⟩ | rfl := hr
    · exact hfails database
    · exact Or.inr (Or.inr ⟨_, name, principal, rfl, hcall, by rw [huser, hid]⟩)

/-- The key of the run above, before it is revoked. -/
theorem issued_key_admits_mock : ∃ q : State, q.prog 0 =
    some (.ret (.created ⟨"00", "ci", "p", true, 0, "agw_p_s"⟩)) ∧
    Prog.Sure (Answers q.state) (Admin.identify mockLibraries ⟨"/api", [("x-api-key", "agw_p_s")]⟩)
      fun r => r = .error .other ∨ r = .ok (.error Admin.unavailable) ∨
        ∃ st, r = .ok (.ok st) ∧ st.userId = some ("5f0c" : Text) := by
  obtain ⟨q, hq, hout, hkeys, husers⟩ : ∃ q, (machine mockLibraries mockCalls).run
      ((machine mockLibraries mockCalls).start mockWorld) mockIssue = some q ∧
      q.prog 0 = some (.ret (.created ⟨"00", "ci", "p", true, 0, "agw_p_s"⟩)) ∧
      q.state.keys.rows.items =
        [(("hagw_p_s" : Text), ⟨⟨"00", "hagw_p_s", some "5f0c", true⟩, "ci", "p", 0, some 0⟩)] ∧
      q.state.users = mockWorld.users := ⟨_, rfl, rfl, rfl, rfl⟩
  refine ⟨q, hout, (issued_key_admits mockLibraries mockCalls mockWorld mockWorld_fresh q
    (Machine.reach_of_run hq) 0 _ hout _ (by decide) (by decide) rfl fun k v hv _ => ?_).mono
      fun r hr => ?_⟩
  · have hmem := Dict.mem_items_iff.mpr hv
    rw [hkeys] at hmem
    cases List.mem_singleton.mp hmem
    refine ⟨rfl, fun u hu => ⟨⟨"5f0c", "a@b.c", "h", true, true⟩, ?_, rfl⟩⟩
    cases hu
    rw [husers]
    rfl
  · refine hr.imp id (Or.imp id ?_)
    rintro ⟨st, name, principal, hst, hcall, huser⟩
    cases hcall
    exact ⟨st, hst, huser⟩

end Admits

end Auth.Keys
end AdaptiveGateway
