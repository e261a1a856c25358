/-
The locks in Redis.

`acquire_lock` draws a token and sets the key of the lock if the key is absent, and
`release_lock` deletes the key, in one script, if it still holds the token.  A lock is gone as
well when its time is over, and its owner does not learn of it.

Any number of clients issue these two calls in any order, and give back only what they have
been given: at once, late, or again and again.  What the stores and the network do between
is left open, and a reply may be lost after its command has taken effect.

`drawn` and `grants` are history.
-/
import AdaptiveGateway.Concurrent.Calls
import AdaptiveGateway.Concurrent.Phases
import AdaptiveGateway.ProxyHttp

namespace AdaptiveGateway
namespace RedisLock

open Codec Concurrent

/-! ## The store -/

/-- The value of a key, and when it expires. -/
structure Lease where
  token : Text
  expires : Time
deriving DecidableEq, Repr

/-- An acquisition: a `SET` that took effect, also where its client was not told. -/
structure Grant (ι : Type) where
  client : ι
  name : Text
  token : Text
deriving DecidableEq, Repr

structure Store (ι : Type) where
  now : Time := 0
  /-- The key of a lock is `lock:` and its name. -/
  locks : Text → Option Lease := fun _ => none
  drawn : List Text := []
  /-- Latest first. -/
  grants : List (Grant ι) := []

inductive Cmd where
  /-- `secrets.token_hex(16)` -/
  | tokenHex
  /-- `SET key token NX EX ttl` -/
  | setNx (name token : Text) (ttl : Nat)
  /-- The script that compares and deletes. -/
  | getDel (name token : Text)

abbrev Ans : Cmd → Type
  | .tokenHex => Text
  | .setNx _ _ _ => Bool
  | .getDel _ _ => Bool

def Cmd.raises : Cmd → Exc → Bool
  | .tokenHex, _ => false
  | _, e => e == .redisError || e == .cancelled

/-- How a command comes out. -/
inductive Choice where
  | done
  | token (t : Text)
  /-- Raised without effect. -/
  | refused (e : Exc)
  /-- Executed, and raised all the same. -/
  | lost (e : Exc)

/-- The store has executed the command. -/
def Choice.executed : Choice → Bool
  | done | lost _ => true
  | token _ | refused _ => false

namespace Store

variable {ι : Type}

/-- The value of the key. -/
def stored (s : Store ι) (name : Text) : Option Text := (s.locks name).map Lease.token

/-- The most recent acquisition of a lock. -/
def lastGrant (s : Store ι) (name : Text) : Option (Grant ι) :=
  s.grants.find? fun g => decide (g.name = name)

/-- The acquisition that is stored. -/
def holder (s : Store ι) (name : Text) : Option (Grant ι) :=
  (s.lastGrant name).filter fun g => decide (s.stored name = some g.token)

def draw (t : Text) (s : Store ι) : Store ι := { s with drawn := t :: s.drawn }

def grant (i : ι) (name token : Text) (ttl : Nat) (s : Store ι) : Store ι :=
  { s with
    locks := Function.update s.locks name (some ⟨token, s.now + seconds ttl⟩)
    grants := ⟨i, name, token⟩ :: s.grants }

def delete (name : Text) (s : Store ι) : Store ι :=
  { s with locks := Function.update s.locks name none }

/-- Time passes, and the locks that run out are gone. -/
def advance (d : Time) (s : Store ι) : Store ι :=
  { s with
    now := s.now + d
    locks := fun name => (s.locks name).filter fun l => decide (s.now + d < l.expires) }

/-- `SET NX EX`, which takes no lifetime of zero. -/
def setNx (i : ι) (name token : Text) (ttl : Nat) (s : Store ι) : Except Exc Bool × Store ι :=
  if ttl = 0 then (.error .redisError, s)
  else match s.locks name with
    | some _ => (.ok false, s)
    | none => (.ok true, s.grant i name token ttl)

def getDel (name token : Text) (s : Store ι) : Except Exc Bool × Store ι :=
  match s.locks name with
  | some l => if l.token = token then (.ok true, s.delete name) else (.ok false, s)
  | none => (.ok false, s)

end Store

variable {ι : Type}

/-- The outcome of a command for its caller, where `o` is that of the store. -/
def reply {β : Type} (c : Cmd) (o : Except Exc β × Store ι) (s : Store ι) :
    Choice → Option (Except Exc β × Store ι)
  | .done => some o
  | .token _ => none
  | .refused e => if c.raises e then some (.error e, s) else none
  | .lost e => if c.raises e then some (.error e, o.2) else none

/-- One command of a client. -/
def exec (i : ι) (c : Cmd) (ch : Choice) (s : Store ι) : Option (Except Exc (Ans c) × Store ι) :=
  match c with
  | .tokenHex =>
    match ch with
    | .token t => some (.ok t, s.draw t)
    | _ => none
  | .setNx name token ttl => reply (.setNx name token ttl) (s.setNx i name token ttl) s ch
  | .getDel name token => reply (.getDel name token) (s.getDel name token) s ch

/-! ## `acquire_lock` and `release_lock` -/

abbrev Prog := Concurrent.Prog Cmd Ans Exc

def await (c : Cmd) : Prog (Ans c) := Concurrent.Prog.issue c

/-- `except RedisError` with a value to return. -/
def catchRedis {α : Type} (p : Prog α) (a : α) : Prog α :=
  Prog.except p fun e => if e = .redisError then some (.ret a) else none

def acquireLock (name : Text) (ttlSeconds : Nat) : Prog (Option Text) := do
  let token ← await .tokenHex
  catchRedis (do
      let acquired ← await (.setNx name token ttlSeconds)
      return if acquired then some token else none)
    none

def releaseLock (name token : Text) : Prog Unit :=
  catchRedis (do
      let _ ← await (.getDel name token)
      return ())
    ()

/-! ## Clients -/

inductive Call where
  | acquire (name : Text) (ttlSeconds : Nat)
  | release (name token : Text)

abbrev Call.Ans : Call → Type
  | .acquire _ _ => Option Text
  | .release _ _ => Unit

def Call.run : (c : Call) → Prog (Call.Ans c)
  | .acquire name ttlSeconds => acquireLock name ttlSeconds
  | .release name token => releaseLock name token

/-- What a client does: which call it makes next may depend on all the answers before. -/
abbrev Script := Concurrent.Prog Call Call.Ans Exc Unit

/-- A client releases what an `acquire_lock` of its own has returned. -/
def ownTokens : Concurrent.Prog.Protocol Call Call.Ans Exc where
  Phase := List (Text × Text)
  allows known
    | .acquire _ _ => True
    | .release name token => (name, token) ∈ known
  next known
    | .acquire name _, .ok (some token) => (name, token) :: known
    | _, _ => known

def OwnTokens (script : Script) : Prop := script.Follows ownTokens [] fun _ _ => True

def machine (clients : ι → Script) : Machine ι Cmd Ans Exc Unit (Store ι) Choice Time where
  exec := exec
  env d s := some (s.advance d)
  drop _ s := s
  boot i := (clients i).interpret Call.run
  again _ _ := none

/-- No token is drawn twice. -/
def distinctDraws : Guard ι Cmd (Store ι) Choice Time where
  act _ _ ch s := ∀ t, ch = .token t → t ∉ s.drawn
  crash _ _ := True
  env _ _ := True

/-! ## The automaton of a client -/

/-- What a client has been given, and what it has drawn and not yet used. -/
structure Phase where
  known : List (Text × Text)
  drawn : Option Text

def Phase.next (φ : Phase) : (c : Cmd) → Except Exc (Ans c) → Phase
  | .tokenHex, .ok token => ⟨φ.known, some token⟩
  | .setNx name token _, .ok true => ⟨(name, token) :: φ.known, none⟩
  | .setNx _ _ _, _ => ⟨φ.known, none⟩
  | _, _ => φ

def lockProtocol : Concurrent.Prog.Protocol Cmd Ans Exc where
  Phase := Phase
  allows φ
    | .tokenHex => True
    | .setNx _ token _ => φ.drawn = some token
    | .getDel name token => (name, token) ∈ φ.known
  next := Phase.next

/-- Between two calls. -/
def between (known : List (Text × Text)) : lockProtocol.Phase := Phase.mk known none

theorem catchRedis_follows {α : Type} {p : Prog α} {a : α} {φ : Phase}
    {Q : Except Exc α → Phase → Prop} (hp : p.Follows lockProtocol φ Q)
    (hQ : ∀ e ψ, Q (.error e) ψ → Q (.ok a) ψ) : (catchRedis p a).Follows lockProtocol φ Q := by
  refine Prog.Follows.except hp (fun _ _ h => h) fun e ψ h => ?_
  by_cases he : e = .redisError
  · rw [if_pos he]
    exact hQ e ψ h
  · rw [if_neg he]
    exact h

theorem acquireLock_follows (name : Text) (ttl : Nat) (known : List (Text × Text)) :
    (acquireLock name ttl).Follows lockProtocol (between known) fun r ψ =>
      ψ = between (ownTokens.next known (.acquire name ttl) r) := by
  refine ⟨trivial, fun r => ?_⟩
  cases r with
  | error e => exact rfl
  | ok token =>
    refine catchRedis_follows ⟨rfl, fun r => ?_⟩ fun _ _ h => h
    cases r with
    | error e => exact rfl
    | ok acquired => cases acquired <;> exact rfl

theorem releaseLock_follows {name token : Text} {known : List (Text × Text)}
    (h : (name, token) ∈ known) :
    (releaseLock name token).Follows lockProtocol (between known) fun _ ψ => ψ = between known := by
  refine catchRedis_follows ⟨h, fun r => ?_⟩ fun _ _ h => h
  cases r <;> exact rfl

theorem call_follows {known : List (Text × Text)} {c : Call} (hc : ownTokens.allows known c) :
    (Call.run c).Follows lockProtocol (between known) fun r ψ =>
      ψ = between (ownTokens.next known c r) := by
  cases c with
  | acquire name ttl => exact acquireLock_follows name ttl known
  | release name token => exact releaseLock_follows hc

theorem boot_follows {script : Script} (h : OwnTokens script) :
    (script.interpret Call.run).Follows lockProtocol (between []) fun _ _ => True :=
  (h.interpret between fun _ _ hc => call_follows hc).mono fun _ _ _ => trivial

/-! ## What a command does -/

section Commands

variable {i : ι} {s s' : Store ι} {ch : Choice} {name token : Text} {ttl : Nat}

theorem reply_cases {β : Type} {c : Cmd} {o : Except Exc β × Store ι} {r : Except Exc β}
    (h : reply c o s ch = some (r, s')) :
    (ch.executed = true ∧ s' = o.2 ∧ (r = o.1 ∨ ∃ e, ch = .lost e ∧ r = .error e)) ∨
      (ch.executed = false ∧ s' = s ∧ ∃ e, r = .error e) := by
  cases ch with
  | done =>
    obtain rfl := Option.some.inj h
    exact .inl ⟨rfl, rfl, .inl rfl⟩
  | token t => cases h
  | refused e =>
    rw [reply] at h
    split at h
    · cases h
      exact .inr ⟨rfl, rfl, e, rfl⟩
    · cases h
  | lost e =>
    rw [reply] at h
    split at h
    · cases h
      exact .inl ⟨rfl, rfl, .inr ⟨e, rfl, rfl⟩⟩
    · cases h

theorem exec_tokenHex {r : Except Exc Text} (h : exec i .tokenHex ch s = some (r, s')) :
    ∃ t, ch = .token t ∧ r = .ok t ∧ s' = s.draw t := by
  cases ch with
  | token t =>
    cases h
    exact ⟨t, rfl, rfl, rfl⟩
  | _ => cases h

/-- A lock is set by a command that found the key absent.  Its client is told so, unless the
reply is lost, and no other client is. -/
theorem exec_setNx {r : Except Exc Bool}
    (h : exec i (.setNx name token ttl) ch s = some (r, s')) :
    (s.stored name = none ∧ s' = s.grant i name token ttl ∧
        (r = .ok true ∨ ∃ e, ch = .lost e ∧ r = .error e)) ∨
      (s' = s ∧ r ≠ .ok true) := by
  rcases reply_cases h with ⟨-, hs, hr⟩ | ⟨-, hs, e, hr⟩
  · rw [Store.setNx] at hs hr
    by_cases httl : ttl = 0
    · rw [if_pos httl] at hs hr
      refine .inr ⟨hs, ?_⟩
      rcases hr with rfl | ⟨e, -, rfl⟩ <;> exact fun he => by cases he
    · rw [if_neg httl] at hs hr
      cases hlock : s.locks name with
      | none =>
        rw [hlock] at hs hr
        exact .inl ⟨by rw [Store.stored, hlock]; rfl, hs, hr⟩
      | some l =>
        rw [hlock] at hs hr
        refine .inr ⟨hs, ?_⟩
        rcases hr with rfl | ⟨e, -, rfl⟩ <;> exact fun he => by cases he
  · exact .inr ⟨hs, fun he => by rw [hr] at he; cases he⟩

/-- The key is deleted by a script that the store has executed and that found its token. -/
theorem exec_getDel {r : Except Exc Bool} (h : exec i (.getDel name token) ch s = some (r, s')) :
    (ch.executed = true ∧ s.stored name = some token ∧ s' = s.delete name) ∨
      (¬(ch.executed = true ∧ s.stored name = some token) ∧ s' = s) := by
  rcases reply_cases h with ⟨hex, hs, -⟩ | ⟨hex, hs, -⟩
  · rw [Store.getDel] at hs
    cases hlock : s.locks name with
    | none =>
      rw [hlock] at hs
      refine .inr ⟨fun hall => ?_, hs⟩
      rw [Store.stored, hlock] at hall
      cases hall.2
    | some l =>
      by_cases htoken : l.token = token
      · simp only [hlock, if_pos htoken] at hs
        exact .inl ⟨hex, by rw [Store.stored, hlock, Option.map_some, htoken], hs⟩
      · simp only [hlock, if_neg htoken] at hs
        refine .inr ⟨fun hall => ?_, hs⟩
        rw [Store.stored, hlock] at hall
        exact htoken (Option.some.inj hall.2)
  · refine .inr ⟨fun hall => ?_, hs⟩
    rw [hex] at hall
    cases hall.1

end Commands

/-! ## The invariant -/

section Invariant

variable {i : ι} {s : Store ι} {name token : Text} {ttl : Nat}

theorem stored_grant : (s.grant i name token ttl).stored name = some token := by
  show (Function.update s.locks name _ name).map Lease.token = _
  rw [Function.update_self, Option.map_some]

theorem stored_grant_of_ne {n : Text} (h : n ≠ name) :
    (s.grant i name token ttl).stored n = s.stored n := by
  show (Function.update s.locks name _ n).map Lease.token = _
  rw [Function.update_of_ne h, Store.stored]

theorem lastGrant_grant : (s.grant i name token ttl).lastGrant name = some ⟨i, name, token⟩ := by
  exact List.find?_cons_of_pos (decide_eq_true rfl)

theorem lastGrant_grant_of_ne {n : Text} (h : n ≠ name) :
    (s.grant i name token ttl).lastGrant n = s.lastGrant n := by
  exact List.find?_cons_of_neg (by simpa using h.symm)

theorem stored_delete : (s.delete name).stored name = none := by
  show (Function.update s.locks name none name).map Lease.token = none
  rw [Function.update_self, Option.map_none]

theorem stored_of_delete {n t : Text} (h : (s.delete name).stored n = some t) :
    s.stored n = some t := by
  by_cases hn : n = name
  · rw [hn, stored_delete] at h
    cases h
  · change (Function.update s.locks name none n).map Lease.token = _ at h
    rwa [Function.update_of_ne hn] at h

theorem stored_of_advance {d : Time} {n t : Text} (h : (s.advance d).stored n = some t) :
    s.stored n = some t := by
  obtain ⟨l, hl, ht⟩ := Option.map_eq_some_iff.mp h
  exact Option.map_eq_some_iff.mpr ⟨l, (Option.filter_eq_some_iff.mp hl).1, ht⟩

/-- What a client has been given was granted to it, no two grants share a token, and a key
holds nothing but its last grant. -/
structure Inv (s : Store ι) (φ : ι → Option Phase) : Prop where
  pending : ∀ i f t, φ i = some f → f.drawn = some t →
    t ∈ s.drawn ∧ ∀ g ∈ s.grants, g.token ≠ t
  separate : ∀ i j f g t, φ i = some f → φ j = some g → f.drawn = some t → g.drawn = some t →
    i = j
  drawn : ∀ g ∈ s.grants, g.token ∈ s.drawn
  distinct : ∀ g ∈ s.grants, ∀ g' ∈ s.grants, g.token = g'.token → g = g'
  known : ∀ i f name token, φ i = some f → (name, token) ∈ f.known → ⟨i, name, token⟩ ∈ s.grants
  stored : ∀ name token, s.stored name = some token →
    ∃ g, s.lastGrant name = some g ∧ g.token = token

variable {φ : ι → Option Phase} {f : Phase}

theorem Inv.start (h : ∀ i f, φ i = some f → f = ⟨[], none⟩) : Inv ({} : Store ι) φ where
  pending i f t hf ht := by
    rw [h i f hf] at ht
    cases ht
  separate i j f g t hf _ ht := by
    rw [h i f hf] at ht
    cases ht
  drawn g hg := by cases hg
  distinct g hg := by cases hg
  known i f name token hf hmem := by
    rw [h i f hf] at hmem
    cases hmem
  stored name token h := by cases h

/-- A step that grants nothing, after which a client knows and has drawn no more than before. -/
theorem Inv.mono (h : Inv s φ) {s' : Store ι} {φ' : ι → Option Phase}
    (hdrawn : s'.drawn = s.drawn) (hgrants : s'.grants = s.grants)
    (hstored : ∀ name token, s'.stored name = some token → s.stored name = some token)
    (hφ : ∀ i f, φ' i = some f → ∃ f', φ i = some f' ∧ f.known = f'.known ∧
      ∀ t, f.drawn = some t → f'.drawn = some t) : Inv s' φ' where
  pending i f t hf ht := by
    obtain ⟨f', hf', -, hsub⟩ := hφ i f hf
    rw [hdrawn, hgrants]
    exact h.pending i f' t hf' (hsub t ht)
  separate i j f g t hf hg ht ht' := by
    obtain ⟨f', hf', -, hsub⟩ := hφ i f hf
    obtain ⟨g', hg', -, hsub'⟩ := hφ j g hg
    exact h.separate i j f' g' t hf' hg' (hsub t ht) (hsub' t ht')
  drawn := by
    rw [hdrawn, hgrants]
    exact h.drawn
  distinct := by
    rw [hgrants]
    exact h.distinct
  known i f name token hf hmem := by
    obtain ⟨f', hf', hknown, -⟩ := hφ i f hf
    rw [hgrants]
    exact h.known i f' name token hf' (hknown ▸ hmem)
  stored name token ht := by
    have hlast : s'.lastGrant name = s.lastGrant name := by
      rw [Store.lastGrant, Store.lastGrant, hgrants]
    rw [hlast]
    exact h.stored name token (hstored name token ht)

variable [DecidableEq ι]

/-- A client goes on to a phase in which it knows and has drawn no more than before. -/
theorem Inv.goOn (h : Inv s φ) (hi : φ i = some f) {s' : Store ι} {f' : Phase}
    (hdrawn : s'.drawn = s.drawn) (hgrants : s'.grants = s.grants)
    (hstored : ∀ name token, s'.stored name = some token → s.stored name = some token)
    (hknown : f'.known = f.known) (hsub : ∀ t, f'.drawn = some t → f.drawn = some t) :
    Inv s' (Function.update φ i (some f')) := by
  refine h.mono hdrawn hgrants hstored fun j g hg => ?_
  rcases update_some hg with ⟨rfl, rfl⟩ | ⟨-, hg⟩
  · exact ⟨f, hi, hknown, hsub⟩
  · exact ⟨g, hg, rfl, fun _ ht => ht⟩

theorem Inv.draw (h : Inv s φ) (hi : φ i = some f) (hnew : token ∉ s.drawn) :
    Inv (s.draw token) (Function.update φ i (some ⟨f.known, some token⟩)) where
  pending j g t hg ht := by
    rcases update_some hg with ⟨rfl, rfl⟩ | ⟨-, hg⟩
    · obtain rfl := Option.some.inj ht
      exact ⟨List.mem_cons_self, fun g hg he => hnew (he ▸ h.drawn g hg)⟩
    · obtain ⟨hmem, hne⟩ := h.pending j g t hg ht
      exact ⟨List.mem_cons_of_mem _ hmem, hne⟩
  separate j k g g' t hg hg' ht ht' := by
    rcases update_some hg with ⟨hj, rfl⟩ | ⟨-, hg⟩
    · rcases update_some hg' with ⟨hk, rfl⟩ | ⟨-, hg'⟩
      · exact hj.trans hk.symm
      · obtain rfl := Option.some.inj ht
        exact absurd (h.pending k g' _ hg' ht').1 hnew
    · rcases update_some hg' with ⟨-, rfl⟩ | ⟨-, hg'⟩
      · obtain rfl := Option.some.inj ht'
        exact absurd (h.pending j g _ hg ht).1 hnew
      · exact h.separate j k g g' t hg hg' ht ht'
  drawn g hg := List.mem_cons_of_mem _ (h.drawn g hg)
  distinct := h.distinct
  known j g name t hg hmem := by
    rcases update_some hg with ⟨rfl, rfl⟩ | ⟨-, hg⟩
    · exact h.known j f name t hi hmem
    · exact h.known j g name t hg hmem
  stored := h.stored

theorem Inv.grant (h : Inv s φ) (hi : φ i = some f) (htoken : f.drawn = some token)
    {known : List (Text × Text)} (hknown : ∀ e ∈ known, e = (name, token) ∨ e ∈ f.known) :
    Inv (s.grant i name token ttl) (Function.update φ i (some ⟨known, none⟩)) where
  pending j g t hg ht := by
    rcases update_some hg with ⟨rfl, rfl⟩ | ⟨hj, hg⟩
    · cases ht
    · obtain ⟨hmem, hne⟩ := h.pending j g t hg ht
      refine ⟨hmem, fun g' hg' => ?_⟩
      rcases List.mem_cons.mp hg' with rfl | hg'
      · intro he
        exact hj (h.separate j i g f t hg hi ht (htoken.trans (congrArg some he)))
      · exact hne g' hg'
  separate j k g g' t hg hg' ht ht' := by
    rcases update_some hg with ⟨rfl, rfl⟩ | ⟨-, hg⟩
    · cases ht
    · rcases update_some hg' with ⟨rfl, rfl⟩ | ⟨-, hg'⟩
      · cases ht'
      · exact h.separate j k g g' t hg hg' ht ht'
  drawn g hg := by
    rcases List.mem_cons.mp hg with rfl | hg
    · exact (h.pending i f token hi htoken).1
    · exact h.drawn g hg
  distinct g hg g' hg' he := by
    have hfresh := (h.pending i f token hi htoken).2
    rcases List.mem_cons.mp hg with rfl | hg <;> rcases List.mem_cons.mp hg' with rfl | hg'
    · rfl
    · exact absurd he.symm (hfresh g' hg')
    · exact absurd he (hfresh g hg)
    · exact h.distinct g hg g' hg' he
  known j g n t hg hmem := by
    rcases update_some hg with ⟨rfl, rfl⟩ | ⟨-, hg⟩
    · rcases hknown _ hmem with he | hmem
      · cases he
        exact List.mem_cons_self
      · exact List.mem_cons_of_mem _ (h.known j f n t hi hmem)
    · exact List.mem_cons_of_mem _ (h.known j g n t hg hmem)
  stored n t ht := by
    by_cases hn : n = name
    · subst hn
      rw [stored_grant] at ht
      exact ⟨_, lastGrant_grant, Option.some.inj ht⟩
    · rw [stored_grant_of_ne hn] at ht
      rw [lastGrant_grant_of_ne hn]
      exact h.stored n t ht

variable {clients : ι → Script}

theorem Inv.exec (h : Inv s φ) (hi : φ i = some f) {c : Cmd} {ch : Choice}
    {r : Except Exc (Ans c)} {s' : Store ι} (hc : lockProtocol.allows f c)
    (hdraw : ∀ t, ch = .token t → t ∉ s.drawn) (he : exec i c ch s = some (r, s')) :
    Inv s' (Function.update φ i (some (f.next c r))) := by
  cases c with
  | tokenHex =>
    obtain ⟨t, rfl, rfl, rfl⟩ := exec_tokenHex he
    exact h.draw hi (hdraw t rfl)
  | setNx name token ttl =>
    rcases exec_setNx he with ⟨-, rfl, -⟩ | ⟨rfl, hr⟩
    · have hnext : ∃ known, f.next (.setNx name token ttl) r = ⟨known, none⟩ ∧
          ∀ e ∈ known, e = (name, token) ∨ e ∈ f.known := by
        match r with
        | .ok true => exact ⟨_, rfl, fun e => List.mem_cons.mp⟩
        | .ok false | .error _ => exact ⟨_, rfl, fun e he => .inr he⟩
      obtain ⟨known, hnext, hknown⟩ := hnext
      rw [hnext]
      exact h.grant hi hc hknown
    · have hnext : f.next (.setNx name token ttl) r = ⟨f.known, none⟩ := by
        match r with
        | .ok true => exact absurd rfl hr
        | .ok false | .error _ => rfl
      rw [hnext]
      exact h.goOn hi rfl rfl (fun _ _ ht => ht) rfl fun t ht => by cases ht
  | getDel name token =>
    have hnext : f.next (.getDel name token) r = f := by cases r <;> rfl
    rw [hnext]
    rcases exec_getDel he with ⟨-, -, rfl⟩ | ⟨-, rfl⟩
    · exact h.goOn hi rfl rfl (fun _ _ => stored_of_delete) rfl fun _ ht => ht
    · exact h.goOn hi rfl rfl (fun _ _ ht => ht) rfl fun _ ht => ht

theorem reach_inv (hclients : ∀ i, OwnTokens (clients i)) {q : Pool ι Cmd Ans Exc Unit (Store ι)}
    (hq : (machine clients).Reach distinctDraws ((machine clients).start {}) q) :
    ∃ φ, InPhase lockProtocol (fun _ => True) q φ ∧ Inv q.state φ := by
  have hstart : InPhase lockProtocol (fun _ => True) ((machine clients).start {})
      fun _ => some (between []) :=
    InPhase.start fun i => boot_follows (hclients i)
  refine Watched.invariant (L := lockProtocol) (F := fun _ => True)
    (J := fun p φ _ => Inv p.state φ) (watched_of_reach hq) (fun _ _ _ _ h => by cases h) hstart
    (Inv.start fun i f hf => (Option.some.inj hf).symm) ?_
  intro p φ _ l q φ' _ _ hmoves hguard h
  cases hmoves with
  | act hp he hφ hc =>
    simp only [Guard.allows, hp] at hguard
    exact h.exec hφ hc hguard he
  | loop => exact h
  | crash =>
    rename_i i
    refine h.mono rfl rfl (fun _ _ ht => ht) fun j g hg => ?_
    by_cases hj : j = i
    · rw [hj, Function.update_self] at hg
      cases hg
    · rw [Function.update_of_ne hj] at hg
      exact ⟨g, hg, rfl, fun _ ht => ht⟩
  | env he =>
    cases he
    exact h.mono rfl rfl (fun _ _ => stored_of_advance) fun j g hg => ⟨g, hg, rfl, fun _ ht => ht⟩

omit [DecidableEq ι] in
theorem holder_eq_some {g : Grant ι} :
    s.holder name = some g ↔ s.lastGrant name = some g ∧ s.stored name = some g.token := by
  rw [Store.holder, Option.filter_eq_some_iff, decide_eq_true_eq]

omit [DecidableEq ι] in
/-- A token that its client has been given is the one stored exactly if the acquisition it
stands for is. -/
theorem Inv.holder_iff (h : Inv s φ) (hi : φ i = some f) (hmem : (name, token) ∈ f.known) :
    s.stored name = some token ↔ s.holder name = some ⟨i, name, token⟩ := by
  rw [holder_eq_some]
  constructor
  · intro hstored
    obtain ⟨g, hlast, htoken⟩ := h.stored name token hstored
    have hg : g = ⟨i, name, token⟩ :=
      h.distinct g (List.mem_of_find?_eq_some hlast) _ (h.known i f name token hi hmem) htoken
    exact ⟨hg ▸ hlast, hstored⟩
  · exact fun hholder => hholder.2

/-- At every moment a lock is free or holds the token of its last acquisition.  A client
acquires only a lock that is free, and a release that reaches the store removes the lock if
the acquisition stored is its own client's, and only then. -/
theorem lock_owned (hclients : ∀ i, OwnTokens (clients i)) {q : Pool ι Cmd Ans Exc Unit (Store ι)}
    (hq : (machine clients).Reach distinctDraws ((machine clients).start {}) q) (name : Text) :
    (q.state.stored name = none ∨
      ∃ g, q.state.lastGrant name = some g ∧ q.state.stored name = some g.token) ∧
    (∀ i token ttl k ch q', q.prog i = some (.call (.setNx name token ttl) k) →
      (machine clients).step q (.act i ch) = some q' →
        (q.state.stored name = none ∧ q'.state = q.state.grant i name token ttl ∧
            (q'.prog i = some (k (.ok true)) ∨ ∃ e, ch = .lost e)) ∨
          (q'.state = q.state ∧ ∃ r, r ≠ .ok true ∧ q'.prog i = some (k r))) ∧
    ∀ i token k ch q', q.prog i = some (.call (.getDel name token) k) →
      (machine clients).step q (.act i ch) = some q' →
        (q.state.stored name ≠ none ∧ q'.state.stored name = none ↔
          ch.executed = true ∧ q.state.holder name = some ⟨i, name, token⟩) := by
  obtain ⟨φ, hφ, h⟩ := reach_inv hclients hq
  refine ⟨?_, ?_, ?_⟩
  · cases hstored : q.state.stored name with
    | none => exact .inl rfl
    | some token =>
      obtain ⟨g, hlast, rfl⟩ := h.stored name token hstored
      exact .inr ⟨g, hlast, rfl⟩
  · intro i token ttl k ch q' hprog hs
    obtain ⟨r, s, he, rfl⟩ := Machine.step_act hprog hs
    have hgoesOn : Function.update q.prog i (some (k r)) i = some (k r) := Function.update_self ..
    rcases exec_setNx he with ⟨hfree, hs, hr⟩ | ⟨hs, hr⟩
    · refine .inl ⟨hfree, hs, ?_⟩
      rcases hr with rfl | ⟨e, hlost, -⟩
      · exact .inl hgoesOn
      · exact .inr ⟨e, hlost⟩
    · exact .inr ⟨hs, r, hr, hgoesOn⟩
  · intro i token k ch q' hprog hs
    obtain ⟨f, hf, hmem⟩ := hφ.allows hprog
    rw [← h.holder_iff hf hmem]
    obtain ⟨r, s, he, rfl⟩ := Machine.step_act hprog hs
    rcases exec_getDel (i := i) he with ⟨hex, hstored, rfl⟩ | ⟨hnot, rfl⟩
    · refine ⟨fun _ => ⟨hex, hstored⟩, fun _ => ⟨?_, stored_delete⟩⟩
      rw [hstored]
      exact Option.some_ne_none token
    · exact ⟨fun hgone => absurd hgone.2 hgone.1, fun hremoves => absurd hremoves hnot⟩

end Invariant

/-- Acquires a lock for a second, and releases it. -/
def oneSecond : Script := do
  let lock : Option Text ← Concurrent.Prog.issue (Call.acquire ['t'] 1)
  match lock with
  | some token => Concurrent.Prog.issue (Call.release ['t'] token)
  | none => return ()

theorem oneSecond_ownTokens : OwnTokens oneSecond := by
  refine ⟨trivial, fun r => ?_⟩
  match r with
  | .error e => trivial
  | .ok none => trivial
  | .ok (some token) => exact ⟨List.mem_cons_self, fun r => by cases r <;> trivial⟩

/-- The first client is late, and the second one has the lock by then. -/
def lateRelease : List (Label Bool Choice Time) :=
  [.act false (.token ['a']), .act false .done, .env (seconds 2),
    .act true (.token ['b']), .act true .done]

def drawsNew (p : Pool Bool Cmd Ans Exc Unit (Store Bool)) : Label Bool Choice Time → Bool
  | .act _ (.token t) => decide (t ∉ p.state.drawn)
  | _ => true

theorem allows_of_drawsNew (p : Pool Bool Cmd Ans Exc Unit (Store Bool))
    (l : Label Bool Choice Time) (h : drawsNew p l = true) : distinctDraws.allows p l := by
  cases l with
  | act i ch =>
    simp only [Guard.allows]
    split
    · rintro t rfl
      exact of_decide_eq_true h
    · trivial
  | _ => trivial

/-- The release a client waits for. -/
def releasing (p : Pool Bool Cmd Ans Exc Unit (Store Bool)) (i : Bool) : Option (Text × Text) :=
  match p.prog i with
  | some (.call (.getDel name token) _) => some (name, token)
  | _ => none

theorem exists_of_releasing {p : Pool Bool Cmd Ans Exc Unit (Store Bool)} {i : Bool}
    {name token : Text} (h : releasing p i = some (name, token)) :
    ∃ k, p.prog i = some (.call (.getDel name token) k) := by
  unfold releasing at h
  split at h
  next k hp =>
    cases h
    exact ⟨k, hp⟩
  next => cases h

theorem lock_owned_late :
    let M := machine fun _ : Bool => oneSecond
    ∃ q q', M.Reach distinctDraws (M.start {}) q ∧ M.step q (.act false .done) = some q' ∧
      releasing q false = some (['t'], ['a']) ∧ q.state.holder ['t'] = some ⟨true, ['t'], ['b']⟩ ∧
      ¬(q.state.stored ['t'] ≠ none ∧ q'.state.stored ['t'] = none) := by
  intro M
  have hrun : ((M.runIn drawsNew (M.start {}) lateRelease).bind fun q =>
      (M.step q (.act false .done)).map fun _ => (releasing q false, q.state.holder ['t'])) =
        some (some (['t'], ['a']), some ⟨true, ['t'], ['b']⟩) := by
    decide +kernel
  obtain ⟨q, hq, hnext⟩ := Option.bind_eq_some_iff.mp hrun
  obtain ⟨q', hs, hobs⟩ := Option.map_eq_some_iff.mp hnext
  obtain ⟨hreleasing, hholder⟩ := Prod.mk.inj hobs
  obtain ⟨k, hk⟩ := exists_of_releasing hreleasing
  have hreach := Machine.reach_of_runIn allows_of_drawsNew hq
  refine ⟨q, q', hreach, hs, hreleasing, hholder, fun hgone => ?_⟩
  have howned := lock_owned (fun _ => oneSecond_ownTokens) hreach ['t']
  have hremoves := (howned.2.2 false ['a'] k .done q' hk hs).mp hgone
  rw [hholder] at hremoves
  cases hremoves.2

end RedisLock
end AdaptiveGateway
