/-
A refresh token is spent at most once.

The routes are proved one by one against what the calls owe each other.  A
successful answer always leaves a row behind, and the ledger has at most one row in
exchange for each token, so two successful answers for one token are one.
-/
import AdaptiveGateway.Auth.Transactions

namespace AdaptiveGateway
namespace Auth

open Codec Concurrent

abbrev State := Pool Thread Cmd Ans Fault Reply World

/-- The exception of a refresh that presented a revoked token. -/
def reused : Fault := .http 401 "refresh token reused" []

/-- What a call leaves behind: the row of the tokens it has handed out, or the
committed update over the rows of the user whose token was reused. -/
structure Ended (svc : Service) (i : Thread) (r : Except Fault Reply) (s : World) : Prop where
  issued : ∀ t, r = .ok (.tokens t) →
    ∃ row, s.tokens.get? (hashToken svc t.refreshToken) = some row ∧ row.issuer = i
  swept : r = .error reused → ∃ w ∈ s.swept, w.thread = i ∧
    ∃ h row, presented svc i = some h ∧ s.tokens.get? h = some row ∧ w.user = row.userId

def contract (svc : Service) (g : Guard Thread Cmd World Choice Event) :
    Contract (gateway svc) g where
  I := Sound svc
  R := Rely
  G i s t := ∀ j, i ≠ j → Rely j s t
  Q := Ended svc
  refl := Rely.refl
  trans _ _ _ _ := Rely.trans
  others _ j _ _ hij _ _ hG := hG j hij
  env e s s' _ hs h := by
    cases h
    exact hs.event e
  crash i s _ hs := hs.close i

section Commands

variable {svc : Service} {g : Guard Thread Cmd World Choice Event} {i : Thread} {s : World}
  {α : Type}

/-- Something ends as `L` says, or with an exception that does not tell of a reuse. -/
def Ok (L : α → World → Prop) : Except Fault α → World → Prop
  | .ok a, s => L a s
  | .error f, _ => f ≠ reused

theorem exc_ne_reused (e : Exc) : Fault.exc e ≠ reused := by
  intro h
  cases h

/-- The commands that only look. -/
def Cmd.looks : Cmd → Bool
  | .now | .tokenUrlsafe | .incrWindow _ _ | .runInThreadpool | .selectUserByEmail _
  | .selectUser _ => true
  | _ => false

theorem exec_looks {c : Cmd} (hc : c.looks = true) {ch : Choice} {r : Except Fault (Ans c)}
    {s' : World} (h : exec i c ch s = some (r, s')) :
    s' = s ∧ ∀ f, r = .error f → ∃ e, f = .exc e := by
  cases c <;> cases hc <;> cases ch <;> simp [exec, Cmd.waits] at h <;>
    obtain ⟨rfl, rfl⟩ := h <;> simp

/-- What the others cannot falsify. -/
def Stable (i : Thread) (L : World → Prop) : Prop := ∀ s t, Rely i s t → L s → L t

/-- The rule for one command, where a failure without effect is left aside. -/
theorem wp_await {c : Cmd} {Q : Except Fault (Ans c) → World → Prop}
    (hexc : ∀ e t, Rely i s t → Q (.error (.exc e)) t)
    (h : ∀ ch r s', (∀ e, ch ≠ .refused e) → Sound svc s → exec i c ch s = some (r, s') →
      (Sound svc s' ∧ ∀ j, i ≠ j → Rely j s s') ∧ ∀ t, Rely i s' t → Q r t) :
    (await c).wp ((contract svc g).pact i) Q s := by
  refine Prog.wp_issue ?_
  rintro r s' ⟨ch, -, hs, hexec⟩
  by_cases hch : ∃ e, ch = .refused e
  · obtain ⟨e, rfl⟩ := hch
    obtain ⟨rfl, rfl⟩ := exec_refused (show exec i c (.refused e) s = _ from hexec)
    exact ⟨hs, fun j _ => Rely.refl j _, fun t _ hst => hexc e t hst⟩
  · obtain ⟨⟨hs', hrely⟩, hQ⟩ := h ch r s' (fun e he => hch ⟨e, he⟩) hs hexec
    exact ⟨hs', hrely, fun t _ hst => hQ t hst⟩

theorem wp_looks {c : Cmd} (hc : c.looks = true) {Q : Except Fault (Ans c) → World → Prop}
    (hok : ∀ a t ch, exec i c ch s = some (.ok a, s) → Rely i s t → Q (.ok a) t)
    (hexc : ∀ e t, Rely i s t → Q (.error (.exc e)) t) :
    (await c).wp ((contract svc g).pact i) Q s := by
  refine wp_await hexc fun ch r s' _ hs hexec => ?_
  obtain ⟨rfl, hf⟩ := exec_looks hc hexec
  refine ⟨⟨hs, fun j _ => Rely.refl j _⟩, fun t hst => ?_⟩
  cases r with
  | ok a => exact hok a t ch hexec hst
  | error f =>
    obtain ⟨e, rfl⟩ := hf f rfl
    exact hexc e t hst

theorem wp_look {c : Cmd} (hc : c.looks = true) {L : World → Prop} (hL : Stable i L) (hs : L s) :
    (await c).wp ((contract svc g).pact i) (Ok fun _ => L) s :=
  wp_looks hc (fun _ t _ _ hst => hL s t hst hs) fun e _ _ => exc_ne_reused e

/-- Nothing is written, and no family update is open. -/
def Idle (i : Thread) (s : World) : Prop := s.tokens.pending i = [] ∧ s.sweep i = none

theorem Idle.stable : Stable i (Idle i) :=
  fun _ _ hst hs => ⟨hst.respects.pending.trans hs.1, hst.sweep.trans hs.2⟩

/-- The call has read the row and keeps its lock. -/
def Holds (i : Thread) (h : Hash) (row : Row) (s : World) : Prop :=
  Idle i s ∧ s.tokens.owner h = some i ∧ s.tokens.get? h = some row

theorem Holds.stable {h : Hash} {row : Row} : Stable i (Holds i h row) :=
  fun s t hst hs => ⟨Idle.stable s t hst hs.1, hst.respects.owner h hs.2.1,
    (hst.respects.rows h hs.2.1).trans hs.2.2⟩

theorem wp_selectForUpdate {h : Hash} (hidle : Idle i s) :
    (await (.selectForUpdate h)).wp ((contract svc g).pact i)
      (Ok fun r t => ∀ row, r = some row → Holds i h row t) s := by
  refine wp_await (fun e _ _ => exc_ne_reused e) fun ch r s' hch hs hexec => ?_
  cases ch with
  | done =>
    simp only [exec] at hexec
    split at hexec
    next hnone =>
      cases hexec
      refine ⟨⟨hs, fun j _ => Rely.refl j s⟩, fun t _ row hrow => ?_⟩
      cases hrow
    next row hrow =>
      obtain ⟨T, hT, heq⟩ := Option.map_eq_some_iff.mp hexec
      cases heq
      obtain ⟨hs', hrely⟩ := hs.lock hT
      have hidle' : Idle i { s with tokens := T } := Idle.stable s _ (hrely i) hidle
      refine ⟨⟨hs', fun j _ => hrely j⟩, fun t hst row' hrow' => ?_⟩
      cases hrow'
      exact Holds.stable _ t hst ⟨hidle', Table.lock_owner hT, (Table.lock_get? hT h).trans hrow⟩
  | refused e => exact absurd rfl (hch e)
  | text | count | order | lost => cases hexec

/-- An `UPDATE` has come to a committed row. -/
theorem wp_revokeRow {h : Hash} {row : Row} (hrow : s.tokens.get? h = some row)
    {Q : Except Fault Unit → World → Prop}
    (hok : ∀ T t, s.tokens.write i h row.revoke = some T → Sound svc { s with tokens := T } →
      Rely i { s with tokens := T } t → Q (.ok ()) t)
    (hexc : ∀ e t, Q (.error (.exc e)) t) :
    (await (.revokeRow h)).wp ((contract svc g).pact i) Q s := by
  refine wp_await (fun e t _ => hexc e t) fun ch r s' hch hs hexec => ?_
  cases ch with
  | done =>
    obtain ⟨row', hcurrent, hcase⟩ := (hs.drafted i).current_of_row hrow
    have hrevoke : row'.revoke = row.revoke := by
      rcases hcase with rfl | rfl
      · rfl
      · rfl
    simp only [exec, hcurrent, hrevoke] at hexec
    obtain ⟨T, hT, heq⟩ := Option.map_eq_some_iff.mp hexec
    cases heq
    have hs' := hs.revoke hrow hT
    exact ⟨hs', fun t hst => hok T t hT hs'.1 hst⟩
  | refused e => exact absurd rfl (hch e)
  | text | count | order | lost => cases hexec

theorem wp_insert {token : NewToken} (hready : Ready svc s i token.userId)
    {Q : Except Fault Unit → World → Prop}
    (hok : ∀ T t, s.tokens.write i token.tokenHash ⟨token.userId, token.expiresAt, false, i⟩ =
      some T → Rely i { s with tokens := T } t → Q (.ok ()) t)
    (hexc : ∀ e t, Q (.error (.exc e)) t) :
    (await (.insert token)).wp ((contract svc g).pact i) Q s := by
  refine wp_await (fun e t _ => hexc e t) fun ch r s' hch hs hexec => ?_
  cases ch with
  | done =>
    simp only [exec] at hexec
    split at hexec
    next =>
      cases hexec
      exact ⟨⟨hs, fun j _ => Rely.refl j _⟩, fun t _ => hexc .dbError t⟩
    next hnone =>
      obtain ⟨T, hT, heq⟩ := Option.map_eq_some_iff.mp hexec
      cases heq
      have hfresh : s.tokens.get? token.tokenHash = none := (Option.or_eq_none_iff.mp hnone).2
      exact ⟨hs.add hready (by rfl) hfresh hT, fun t hst => hok T t hT hst⟩
  | refused e => exact absurd rfl (hch e)
  | text | count | order | lost => cases hexec

theorem wp_scan {w : Where} (hidle : Idle i s) {Q : Except Fault (List Hash) → World → Prop}
    (hok : ∀ hs t, hs.Perm (s.matching w) → Rely i (s.scanned i w hs) t → Q (.ok hs) t)
    (hexc : ∀ e t, Q (.error (.exc e)) t) :
    (await (.scan w)).wp ((contract svc g).pact i) Q s := by
  refine wp_await (fun e t _ => hexc e t) fun ch r s' hch hs hexec => ?_
  cases ch with
  | order hashes =>
    simp only [exec] at hexec
    split at hexec
    next hperm =>
      cases hexec
      have hperm' : hashes.Perm (s.matching w) := List.isPerm_iff.mp hperm
      exact ⟨hs.scanned hperm' hidle.1, fun t hst => hok hashes t hperm' hst⟩
    next => cases hexec
  | refused e => exact absurd rfl (hch e)
  | done | text | count | lost => cases hexec

theorem wp_commit {Q : Except Fault Unit → World → Prop}
    (hseen : ∀ u seen, s.sweep i = some (u, seen) → ∀ k ∈ seen, Revoking i k s)
    (hok : ∀ t, Persists s t → Rely i (s.commit i) t → Q (.ok ()) t)
    (hexc : ∀ e t, Q (.error (.exc e)) t) : (await .commit).wp ((contract svc g).pact i) Q s := by
  refine wp_await (fun e t _ => hexc e t) fun ch r s' hch hs hexec => ?_
  cases ch with
  | done =>
    cases hexec
    have hpersists := (hs.drafted i).persists_commit
    exact ⟨hs.commit i hseen, fun t hst => hok t (hpersists.trans hst.persists) hst⟩
  | lost e =>
    cases hexec
    exact ⟨hs.commit i hseen, fun t _ => hexc e t⟩
  | refused e => exact absurd rfl (hch e)
  | text | count | order => cases hexec

end Commands

section Routes

variable {svc : Service} {g : Guard Thread Cmd World Choice Event} {i : Thread} {s : World}
  {α : Type} {L : World → Prop} {h : Hash} {row : Row}

theorem Ended.refuse {f : Fault} (hne : f ≠ reused) : Ended svc i (.error f) s where
  issued _ h := by cases h
  swept h := absurd (Except.error.inj h) hne

/-- A route goes on only after what has succeeded. -/
theorem wp_then {p : Prog α} {f : α → Prog Reply} {K : α → World → Prop}
    (hp : p.wp ((contract svc g).pact i) (Ok K) s)
    (hf : ∀ a t, K a t → (f a).wp ((contract svc g).pact i) (Ended svc i) t) :
    (Prog.bind p f).wp ((contract svc g).pact i) (Ended svc i) s :=
  Prog.wp_seq hp (fun _ _ hne => .refuse hne) hf

theorem wp_enforceRateLimit (hL : Stable i L) (hs : L s) (clientIp scope : Text)
    (limit window : Nat) :
    (enforceRateLimit svc clientIp scope limit window).wp ((contract svc g).pact i)
      (Ok fun _ => L) s := by
  refine Prog.wp_seq (L := Ok fun _ => L) ?_ (fun _ _ hne => hne) fun allowed t ht => ?_
  · -- The counter may be out of reach, and then the call goes on where it was.
    refine Prog.wp_catch (L := fun r t => L t ∧ ∀ f, r = .error f → f ≠ reused) ?_
      (fun _ _ ht => ht.1) (fun e t _ ht => ?_) fun f t _ ht => ht.2 f rfl
    · refine Prog.wp_seq (L := fun r t => L t ∧ ∀ f, r = .error f → f ≠ reused)
        (wp_looks rfl (fun a t _ _ hst => ⟨hL s t hst hs, by simp⟩) fun e t hst => ?_)
        (fun f _ ht => ⟨ht.1, fun f' hf' => Except.error.inj hf' ▸ ht.2 f rfl⟩)
        fun _ _ ht => ⟨ht.1, by simp⟩
      refine ⟨hL s t hst hs, fun f hf => ?_⟩
      cases hf
      exact exc_ne_reused e
    · split
      next => exact (by decide : Fault.http 503 ("rate limiter unavailable" : Text) [] ≠ reused)
      next => exact ht.1
  · split
    next => exact ht
    next =>
      show Fault.http 429 _ _ ≠ reused
      intro hf
      cases hf

theorem wp_issueTokens (hL : Stable i L) (hs : L s) (user : User) :
    (issueTokens svc user).wp ((contract svc g).pact i)
      (Ok fun r t => L t ∧ r.2.userId = user.id ∧ r.2.tokenHash = hashToken svc r.1.refreshToken)
      s := by
  refine Prog.wp_seq (L := Ok fun r t => L t ∧ r.2 = hashToken svc r.1) ?_ (fun _ _ hne => hne) ?_
  · refine Prog.wp_seq (wp_look rfl hL hs) (fun _ _ hne => hne) fun raw t ht => ?_
    exact ⟨ht, rfl⟩
  · rintro ⟨rawRefresh, refreshHash⟩ t ⟨ht, hhash⟩
    refine Prog.wp_seq (L := Ok fun _ => L) ?_ (fun _ _ hne => hne) fun expiresAt t ht => ?_
    · exact Prog.wp_seq (wp_look rfl hL ht) (fun _ _ hne => hne) fun _ _ ht => ht
    · refine Prog.wp_seq (L := Ok fun _ => L) ?_ (fun _ _ hne => hne) fun access t ht => ?_
      · exact Prog.wp_seq (wp_look rfl hL ht) (fun _ _ hne => hne) fun _ _ ht => ht
      · exact ⟨ht, rfl, hhash⟩

/-- A call that may add a row adds it, commits and answers. -/
theorem wp_addTokens {tokens : TokenResponse} {added : NewToken}
    (hready : Ready svc s i added.userId)
    (hhash : added.tokenHash = hashToken svc tokens.refreshToken) :
    Prog.wp ((contract svc g).pact i) (do
        await (.insert added)
        await .commit
        return Reply.tokens tokens) (Ended svc i) s := by
  refine Prog.wp_seq (L := Ok fun _ t => t.sweep i = none ∧ ∃ v, v.issuer = i ∧
      t.tokens.current i added.tokenHash = some v)
    (wp_insert hready (fun T t hT hst => ⟨hst.sweep.trans hready.sweep,
      ⟨added.userId, added.expiresAt, false, i⟩, rfl, ?_⟩) fun e _ => exc_ne_reused e)
    (fun _ _ hne => .refuse hne) ?_
  · rw [Table.current, hst.respects.pending]
    rw [show _ = _ from Table.write_pending hT]
    simp [Dict.lookup]
  · rintro - t ⟨hsweep, v, hissuer, hcurrent⟩
    refine wp_then (K := fun _ t => ∃ v, v.issuer = i ∧ t.tokens.get? added.tokenHash = some v)
      (wp_commit (fun u seen hseen => ?_) (fun t' _ hst => ?_) fun e _ => exc_ne_reused e) ?_
    · rw [hsweep] at hseen
      cases hseen
    · obtain ⟨v', hv', -, hissuer', -⟩ :=
        hst.persists.columns ((Table.commit_get? added.tokenHash).trans hcurrent)
      exact ⟨v', hissuer'.trans hissuer, hv'⟩
    · rintro - t ⟨v, hissuer, hv⟩
      refine ⟨fun t' ht' => ?_, fun h => by cases h⟩
      cases ht'
      exact ⟨v, hhash ▸ hv, hissuer⟩

theorem wp_login (hidle : Idle i s) (hpresented : presented svc i = none)
    (email password clientIp : Text) :
    (login svc email password clientIp).wp ((contract svc g).pact i) (Ended svc i) s := by
  refine wp_then (wp_enforceRateLimit Idle.stable hidle _ _ _ _) fun _ t ht => ?_
  refine wp_then (wp_look rfl Idle.stable ht) fun user t ht => ?_
  cases user with
  | none => exact .refuse (by decide)
  | some user =>
    refine wp_then (wp_look rfl Idle.stable ht) fun _ t ht => ?_
    show Prog.wp _ (if _ then _ else _) _ _
    split
    next =>
      unfold loginUser
      split
      next =>
        refine wp_then (wp_issueTokens Idle.stable ht user) ?_
        rintro ⟨tokens, added⟩ t ⟨ht, -, hhash⟩
        refine wp_addTokens ⟨ht.2, fun k v hv => ?_, fun h hh => ?_⟩ hhash
        · rw [ht.1] at hv
          cases hv
        · rw [hpresented] at hh
          cases hh
      next => exact .refuse (by decide)
    next => exact .refuse (by decide)

/-- The exchange of a token whose row is locked and not revoked. -/
theorem wp_rotate (hs : Holds i h row s) (hlive : row.revoked = false)
    (hpresented : presented svc i = some h) {user : User} (huser : user.id = row.userId) :
    (rotate svc h user).wp ((contract svc g).pact i) (Ended svc i) s := by
  refine wp_then (wp_issueTokens Holds.stable hs user) ?_
  rintro ⟨tokens, added⟩ t ⟨⟨⟨hp, hsweep⟩, -, hrow⟩, hadded, hhash⟩
  refine wp_then (K := fun _ t => Ready svc t i added.userId)
    (wp_revokeRow hrow (fun T t' hT hsound hst => ?_) fun e _ => exc_ne_reused e)
    fun _ t ht => wp_addTokens ht hhash
  have hpending : t'.tokens.pending i = [(h, row.revoke)] := by
    rw [hst.respects.pending]
    show T.pending i = _
    rw [Table.write_pending hT, hp]
  have hrow' : t'.tokens.get? h = some row := by
    rw [hst.respects.rows h (Table.write_owner hT)]
    exact (Table.write_get? hT h).trans hrow
  refine ⟨hst.sweep.trans hsweep, fun k v hv => ?_, fun h' hh' => ?_⟩
  · rw [hpending, List.mem_singleton] at hv
    cases hv
    simp [hrow']
  · rw [hpresented] at hh'
    cases hh'
    exact ⟨row, hrow', hlive, (hadded.trans huser).symm, by simp [hpending]⟩

/-- The snapshot that a committed update is on record with. -/
def Where.sweep : Where → List Hash → Option (UserId × List Hash)
  | .tokenHash _, _ => none
  | .userId u, hs => some (u, hs)

/-- The update has come to every row of its snapshot. -/
theorem wp_revokeWhere (hidle : Idle i s) (w : Where) :
    (revokeWhere w).wp ((contract svc g).pact i)
      (Ok fun _ t => Persists s t ∧ ∃ hs, t.sweep i = w.sweep hs ∧ ∀ k ∈ hs, Revoking i k t) s := by
  refine Prog.wp_seq (L := Ok fun hs t => Persists s t ∧ t.sweep i = w.sweep hs ∧
    ∀ k ∈ hs, ∃ r, t.tokens.get? k = some r)
    (wp_scan hidle (fun hs t hperm hst => ?_) fun e _ => exc_ne_reused e) (fun _ _ hne => hne) ?_
  · have hscanned : Persists s (s.scanned i w hs) := by
      cases w <;> exact .of_rows fun _ => rfl
    refine ⟨hscanned.trans hst.persists, ?_, fun k hk => ?_⟩
    · rw [hst.sweep]
      cases w with
      | tokenHash h => exact hidle.2
      | userId u => exact Function.update_self _ _ _
    · obtain ⟨r, hr, -⟩ := mem_matching.mp (hperm.subset hk)
      obtain ⟨r', hr', -⟩ := hscanned.trans hst.persists k r hr
      exact ⟨r', hr'⟩
  · -- The rows that are left are committed, and the others are as good as revoked.
    intro hs t ht
    refine Prog.wp_forEach_rest (L := fun rest t => Persists s t ∧ t.sweep i = w.sweep hs ∧
        (∀ k ∈ rest, ∃ r, t.tokens.get? k = some r) ∧ ∀ k ∈ hs, k ∈ rest ∨ Revoking i k t)
      (fun t ht => ⟨ht.1, hs, ht.2.1, fun k hk => (ht.2.2.2 k hk).resolve_left (by simp)⟩)
      (fun k rest t ht => ?_) hs ⟨ht.1, ht.2.1, ht.2.2, fun k hk => Or.inl hk⟩
    obtain ⟨hpersists, hsweep, hrest, hdone⟩ := ht
    obtain ⟨r, hr⟩ := hrest k List.mem_cons_self
    refine wp_revokeRow hr (fun T t' hT hsound hst => ?_) fun e _ => exc_ne_reused e
    have hT' : Persists t { t with tokens := T } := .of_rows (Table.write_get? hT)
    refine ⟨hpersists.trans (hT'.trans hst.persists), hst.sweep.trans hsweep, fun k' hk' => ?_,
      fun k' hk' => ?_⟩
    · obtain ⟨r', hr'⟩ := hrest k' (List.mem_cons_of_mem k hk')
      obtain ⟨r'', hr'', -⟩ := hT'.trans hst.persists k' r' hr'
      exact ⟨r'', hr''⟩
    · have hkept : Revoking i k' { t with tokens := T } → Revoking i k' t' :=
        fun hrev => hrev.mono hsound.coherent hst
      rcases hdone k' hk' with hmem | ⟨r', hr', hpending⟩
      · rcases List.mem_cons.mp hmem with rfl | hmem
        · refine Or.inr (hkept ⟨r, (Table.write_get? hT k').trans hr, ?_⟩)
          rw [show _ = _ from Table.write_pending hT]
          exact List.mem_cons_self
        · exact Or.inl hmem
      · refine Or.inr (hkept ⟨r', (Table.write_get? hT k').trans hr', ?_⟩)
        rw [show _ = _ from Table.write_pending hT]
        exact List.mem_cons_of_mem _ hpending

theorem wp_reuseDetected (hs : Holds i h row s) (hpresented : presented svc i = some h) :
    (reuseDetected row).wp ((contract svc g).pact i) (Ended svc i) s := by
  refine wp_then (wp_revokeWhere hs.1 (.userId row.userId)) ?_
  rintro - t ⟨hpersists, hashes, hsweep, hrevoking⟩
  refine wp_then (K := fun _ t => ∃ w ∈ t.swept, w.thread = i ∧
      ∃ h row, presented svc i = some h ∧ t.tokens.get? h = some row ∧ w.user = row.userId)
    (wp_commit (fun u seen hseen => ?_) (fun t' hcommit hst => ?_) fun e _ => exc_ne_reused e)
    fun _ t ht => ⟨fun _ h => (by cases h), fun _ => ht⟩
  · rw [hsweep] at hseen
    cases hseen
    exact hrevoking
  · have hswept : ⟨i, row.userId, t.existing i row.userId, hashes⟩ ∈ (t.commit i).swept :=
      World.mem_swept_commit.mpr (Or.inr ⟨row.userId, hashes, hsweep, rfl⟩)
    obtain ⟨r, hr, huser, -⟩ := (hpersists.trans hcommit).columns hs.2.2
    exact ⟨_, hst.swept hswept, rfl, h, r, hpresented, hr, huser.symm⟩

theorem wp_refresh (hidle : Idle i s) {raw : Text}
    (hpresented : presented svc i = some (hashToken svc raw)) :
    (refresh svc raw).wp ((contract svc g).pact i) (Ended svc i) s := by
  refine wp_then (wp_selectForUpdate hidle) fun stored t ht => ?_
  cases stored with
  | none => exact .refuse (by decide)
  | some row =>
    have hholds := ht row rfl
    show Prog.wp _ (if _ then _ else _) _ _
    split
    next => exact wp_reuseDetected hholds hpresented
    next hlive =>
      refine wp_then (wp_look rfl Holds.stable hholds) fun now t ht => ?_
      show Prog.wp _ (if _ then _ else _) _ _
      split
      next => exact .refuse (by decide)
      next =>
        refine wp_then (K := fun user t => Holds i (hashToken svc raw) row t ∧
            ∀ u, user = some u → u.id = row.userId)
          (wp_looks rfl (fun user t ch hexec hst => ⟨Holds.stable _ t hst ht, ?_⟩)
            fun e _ _ => exc_ne_reused e) fun user t ht => ?_
        · intro u hu
          subst hu
          cases ch <;> simp [exec, Cmd.waits] at hexec
          simpa using List.find?_some hexec
        · cases user with
          | none => exact .refuse (by decide)
          | some user =>
            show Prog.wp _ (if _ then _ else _) _ _
            split
            next => exact wp_rotate ht.1 (by simpa using hlive) hpresented (ht.2 user rfl)
            next => exact .refuse (by decide)

theorem wp_logout (hidle : Idle i s) (raw : Text) :
    (logout svc raw).wp ((contract svc g).pact i) (Ended svc i) s := by
  refine wp_then (wp_revokeWhere hidle _) ?_
  rintro - t ⟨-, hashes, hsweep, -⟩
  refine wp_then (K := fun _ _ => True) (wp_commit (fun u seen hseen => ?_)
    (fun _ _ _ => trivial) fun e _ => exc_ne_reused e)
    fun _ _ _ => ⟨fun _ h => (by cases h), fun h => (by cases h)⟩
  rw [hsweep] at hseen
  cases hseen

/-- The session is closed after the handler, and what was committed stays. -/
theorem wp_serve (hidle : Idle i s) :
    (serve svc (svc.requests i)).wp ((contract svc g).pact i) (Ended svc i) s := by
  refine wp_then (K := fun _ => Idle i) (wp_await (fun e _ _ => exc_ne_reused e)
    fun ch r s' hch hs hexec => ?_) fun _ t ht => ?_
  · cases ch with
    | done =>
      cases hexec
      exact ⟨hs.openSession hidle.2, fun t hst => Idle.stable _ t hst hidle⟩
    | refused e => exact absurd rfl (hch e)
    | text | count | order | lost => cases hexec
  · refine Prog.wp_finally (Prog.wp_mono (fun r t' ht' => ?_)
      (show (handler svc (svc.requests i)).wp _ (Ended svc i) t from ?_))
    · refine Prog.wp_issue ?_
      rintro r' s' ⟨ch, -, hs, hexec⟩
      cases ch with
      | done =>
        cases hexec
        obtain ⟨hs', hrely⟩ := hs.close i
        refine ⟨hs', hrely, fun u _ hst => ⟨fun tokens htokens => ?_, fun hreused => ?_⟩⟩
        · obtain ⟨row, hrow, hissuer⟩ := ht'.issued tokens htokens
          obtain ⟨row', hrow', -, hissuer', -⟩ := hst.persists.columns (k := _) hrow
          exact ⟨row', hrow', hissuer'.trans hissuer⟩
        · obtain ⟨w, hw, hthread, h, row, hpresented, hrow, huser⟩ := ht'.swept hreused
          obtain ⟨row', hrow', huser', -⟩ := hst.persists.columns (k := _) hrow
          exact ⟨w, hst.swept hw, hthread, h, row', hpresented, hrow', huser.trans huser'.symm⟩
      | refused e => cases hexec
      | text | count | order | lost => cases hexec
    · cases hr : svc.requests i with
      | login email password clientIp =>
        exact wp_login ht (by simp [presented, hr]) email password clientIp
      | refresh raw => exact wp_refresh ht (by simp [presented, hr])
      | logout raw => exact wp_logout ht raw

theorem sound_empty (svc : Service) : Sound svc {} where
  coherent := Table.coherent_empty
  drafted _ := .empty rfl
  wellFormed := ⟨fun _ _ _ h => (by cases h), fun _ _ _ _ _ h => (by cases h)⟩
  began _ _ _ h := by cases h
  covers _ _ _ h := by cases h
  swept _ h := by cases h

/-- In every reachable state the invariant holds, and a call that has ended has left
behind what its answer says. -/
theorem reach_sound {q : State} (hq : (gateway svc).Reach g ((gateway svc).start {}) q) :
    Sound svc q.state ∧ ∀ i r, q.prog i = some (Prog.ofExcept r) → Ended svc i r q.state := by
  have hboot : ∀ i, (contract svc g).Kept i {} ((gateway svc).boot i) :=
    fun i t _ hst => wp_serve (Idle.stable {} t hst ⟨rfl, rfl⟩)
  obtain ⟨hsound, hkept⟩ := (contract svc g).sound (sound_empty svc) hboot
    (fun _ _ _ _ h => (by cases h)) hq
  refine ⟨hsound, fun i r hr => ?_⟩
  have hwp := hkept i _ hr q.state hsound (Rely.refl i q.state)
  cases r with
  | ok a => exact hwp
  | error f => exact hwp

end Routes

/-! ## One success for each token -/

/-- The row stands for a token given in exchange for `h`. -/
def Row.succeeds (svc : Service) (r : Row) (h : Hash) : Prop := presented svc r.issuer = some h

/-- However logins, refreshes and logouts interleave: a successful refresh has left
the row of the new token behind, each token has at most one such row, and of all
calls that presented it at most one has succeeded. -/
theorem refresh_token_spent_once (svc : Service) (q : State)
    (hq : (gateway svc).Reach Guard.any ((gateway svc).start {}) q) :
    (∀ i raw t, svc.requests i = .refresh raw → q.prog i = some (.ret (.tokens t)) →
      ∃ row, q.state.tokens.get? (hashToken svc t.refreshToken) = some row ∧ row.issuer = i ∧
        row.succeeds svc (hashToken svc raw)) ∧
    (∀ h k k' row row', q.state.tokens.get? k = some row → q.state.tokens.get? k' = some row' →
      row.succeeds svc h → row'.succeeds svc h → k = k') ∧
    ∀ i j raw raw' t t', svc.requests i = .refresh raw → svc.requests j = .refresh raw' →
      hashToken svc raw = hashToken svc raw' → q.prog i = some (.ret (.tokens t)) →
      q.prog j = some (.ret (.tokens t')) → i = j := by
  obtain ⟨hsound, hended⟩ := reach_sound hq
  have hrow : ∀ i raw t, svc.requests i = .refresh raw → q.prog i = some (.ret (.tokens t)) →
      ∃ row, q.state.tokens.get? (hashToken svc t.refreshToken) = some row ∧ row.issuer = i ∧
        row.succeeds svc (hashToken svc raw) := by
    intro i raw t hi hret
    obtain ⟨row, hrow, rfl⟩ := (hended i (.ok (.tokens t)) hret).issued t rfl
    exact ⟨row, hrow, rfl, by simp [Row.succeeds, presented, hi]⟩
  have hunique : ∀ h k k' row row', q.state.tokens.get? k = some row →
      q.state.tokens.get? k' = some row' → row.succeeds svc h → row'.succeeds svc h → k = k' := by
    intro h k k' row row' hk hk' hrow hrow'
    exact hsound.wellFormed.unique k k' (row.token svc) (row'.token svc) h
      (by simp [World.ledger, hk]) (by simp [World.ledger, hk']) hrow hrow'
  refine ⟨hrow, hunique, fun i j raw raw' t t' hi hj hraw hret hret' => ?_⟩
  obtain ⟨row, hk, hissuer, hsucc⟩ := hrow i raw t hi hret
  obtain ⟨row', hk', hissuer', hsucc'⟩ := hrow j raw' t' hj hret'
  have hkey := hunique _ _ _ row row' hk hk' hsucc (hraw ▸ hsucc')
  rw [hkey, hk'] at hk
  cases hk
  exact hissuer.symm.trans hissuer'

/-! ## A user logs in and refreshes -/

section Mock

def tokenA : Text := List.replicate 64 'A'
def tokenB : Text := List.replicate 64 'B'
def tokenC : Text := List.replicate 64 'C'
def tokenD : Text := List.replicate 64 'D'

/-- The SHA-256 digests of the first three tokens, and texts of another length for
the rest. -/
def mockSha256 (b : Bytes) : Text :=
  if b = utf8 tokenA then "d53eda7a637c99cc7fb566d96e9fa109bf15c478410a3f5eb4d4c4e26cd081f6"
  else if b = utf8 tokenB then "c422e7070cb1cb455b5de9afee0d975e303d0239c72030cd7414ab5c382d3ae8"
  else if b = utf8 tokenC then "27d926a6708d6769d97d065e7a5a860ab496eab272c03d1cebc55ec71b954fa2"
  else 'x' :: latin1 b

/-- One login and four refreshes, two of which present the same token. -/
def mockService : Service where
  settings := {}
  lib := ⟨mockSha256, fun password hashed => hashed == 'h' :: password, fun c => c.sub⟩
  requests
    | 0 => .login "user@test" "password" "127.0.0.1"
    | 1 => .refresh tokenA
    | 2 => .refresh tokenB
    | 3 => .refresh tokenA
    | 4 => .refresh tokenC
    | _ => .logout tokenA

def mockUser : User := ⟨"5f0c", "user@test", "hpassword", true, false⟩

def acts (i : Thread) (cs : List Choice) : List (Label Thread Choice Event) :=
  cs.map fun c => .act i c

/-- Everything from the first command of a login to its last, with this token. -/
def loginWith (i : Thread) (raw : Text) : List (Label Thread Choice Event) :=
  acts i [.done, .count 1, .done, .done, .text raw, .done, .done, .done, .done, .done]

/-- The same for a refresh up to the insertion of the new row, and the rest of it. -/
def exchangeFor (i : Thread) (raw : Text) : List (Label Thread Choice Event) :=
  acts i [.done, .done, .done, .done, .text raw, .done, .done, .done, .done]

def conclude (i : Thread) : List (Label Thread Choice Event) := acts i [.done, .done]

/-- The refresh token in the answer of a call that has succeeded. -/
def answered (q : State) (i : Thread) : Option Text :=
  match q.prog i with
  | some (.ret (.tokens t)) => some t.refreshToken
  | _ => none

theorem prog_of_answered {q : State} {i : Thread} {raw : Text} (h : answered q i = some raw) :
    ∃ t, q.prog i = some (.ret (.tokens t)) ∧ t.refreshToken = raw := by
  unfold answered at h
  split at h
  next t ht => exact ⟨t, ht, Option.some.inj h⟩
  next => cases h

/-- Whether a call has ended with this status and detail. -/
def refused (q : State) (i : Thread) (status : Nat) (detail : Text) : Bool :=
  match q.prog i with
  | some (.raise e) => decide (e = .http status detail [])
  | _ => false

theorem prog_of_refused {q : State} {i : Thread} {status : Nat} {detail : Text}
    (h : refused q i status detail = true) :
    q.prog i = some (.raise (.http status detail [])) := by
  unfold refused at h
  split at h
  next e he =>
    rw [he, of_decide_eq_true h]
  next => cases h

/-- The token of the login is presented by two refreshes.  The second waits for the row while
the first exchanges the token, and is then refused. -/
theorem refresh_token_spent_once_mock :
    ∃ q t, (gateway mockService).Reach Guard.any ((gateway mockService).start {}) q ∧
      mockService.requests 1 = .refresh tokenA ∧ mockService.requests 3 = .refresh tokenA ∧
      q.prog 1 = some (.ret (.tokens t)) ∧ t.refreshToken = tokenB ∧
      q.prog 3 = some (.raise (.http 401 "refresh token reused" [])) ∧
      ∃ row, q.state.tokens.get? (hashToken mockService tokenB) = some row ∧ row.issuer = 1 := by
  have hrun : ((gateway mockService).run ((gateway mockService).start {})
      ([.env (.users [mockUser])] ++ loginWith 0 tokenA ++ exchangeFor 1 tokenB ++ acts 3 [.done] ++
        conclude 1 ++ acts 3 [.done, .order [hashToken mockService tokenA,
          hashToken mockService tokenB], .done, .done, .done, .done])).map
      (fun q => (answered q 1, refused q 3 401 "refresh token reused")) =
        some (some tokenB, true) := by
    decide +kernel
  obtain ⟨q, hq, hend⟩ := Option.map_eq_some_iff.mp hrun
  obtain ⟨hanswer, hrefused⟩ := Prod.mk.inj hend
  obtain ⟨t, hret, htoken⟩ := prog_of_answered hanswer
  have hreach := Machine.reach_of_run hq
  obtain ⟨row, hrow, hissuer, -⟩ :=
    (refresh_token_spent_once mockService q hreach).1 1 tokenA t rfl hret
  rw [htoken] at hrow
  exact ⟨q, t, hreach, rfl, rfl, hret, htoken, prog_of_refused hrefused, row, hrow, hissuer⟩

end Mock

end Auth
end AdaptiveGateway
