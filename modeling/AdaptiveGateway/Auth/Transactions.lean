/-
Commits as steps of the ledger.

The row lock that `refresh` takes first keeps the presented token as it was read
until the exchange is committed, and until then nobody else sees any of it, so that
every commit is one step of the abstract ledger.  `Sound` collects what holds
between any two commands and `Rely` what a call may count on meanwhile; each way to
change the state is shown to keep the first and to give the second to the others.
-/
import AdaptiveGateway.Auth.Routes

namespace AdaptiveGateway
namespace Auth

open Codec Concurrent

variable {svc : Service} {s t u : World} {i j : Thread} {h k : Hash} {row : Row}

/-! ## What is not committed yet -/

/-- What a transaction has written: rows it revokes, and at most one that it adds.
A token given in exchange is added together with the revocation of the one it was
given for, which is not revoked yet. -/
structure Drafted (svc : Service) (s : World) (i : Thread) : Prop where
  revokes : ∀ k v r, (k, v) ∈ s.tokens.pending i → s.tokens.get? k = some r → v = r.revoke
  adds : ∀ k v, (k, v) ∈ s.tokens.pending i → s.tokens.get? k = none →
    v.issuer = i ∧ s.sweep i = none ∧ ∀ h, presented svc i = some h →
      ∃ r, s.tokens.get? h = some r ∧ r.revoked = false ∧ r.userId = v.userId ∧
        (h, r.revoke) ∈ s.tokens.pending i
  single : ∀ k k' v v', (k, v) ∈ s.tokens.pending i → (k', v') ∈ s.tokens.pending i →
    s.tokens.get? k = none → s.tokens.get? k' = none → k = k'

/-- The call has written the revocation of a row. -/
def Revoking (i : Thread) (k : Hash) (s : World) : Prop :=
  ∃ r, s.tokens.get? k = some r ∧ (k, r.revoke) ∈ s.tokens.pending i

/-- Rows stay, and the only column that changes is `revoked`. -/
def Persists (s t : World) : Prop :=
  ∀ k r, s.tokens.get? k = some r → ∃ r', t.tokens.get? k = some r' ∧ (r' = r ∨ r' = r.revoke)

structure Sound (svc : Service) (s : World) : Prop where
  coherent : s.tokens.Coherent
  drafted : ∀ i, Drafted svc s i
  wellFormed : (s.ledger svc).WellFormed
  began : ∀ i k r, (k, r) ∈ s.began i → ∃ r', s.tokens.get? k = some r' ∧ r'.userId = r.userId
  covers : ∀ i u seen, s.sweep i = some (u, seen) → s.existing i u ⊆ seen
  swept : ∀ w ∈ s.swept, w.existing ⊆ w.seen ∧
    ∀ k ∈ w.seen, ∃ r, s.tokens.get? k = some r ∧ r.revoked = true

/-- What the other calls and the surroundings leave alone of the call `i`. -/
structure Rely (i : Thread) (s t : World) : Prop where
  respects : Table.Respects i s.tokens t.tokens
  persists : Persists s t
  began : t.began i = s.began i
  sweep : t.sweep i = s.sweep i
  swept : s.swept ⊆ t.swept

theorem Persists.of_rows (hrows : ∀ k, t.tokens.get? k = s.tokens.get? k) : Persists s t :=
  fun k r hr => ⟨r, (hrows k).trans hr, Or.inl rfl⟩

theorem Persists.trans (hst : Persists s t) (htu : Persists t u) : Persists s u := by
  intro k r hr
  obtain ⟨r', hr', hcase⟩ := hst k r hr
  obtain ⟨r'', hr'', hcase'⟩ := htu k r' hr'
  refine ⟨r'', hr'', ?_⟩
  rcases hcase with rfl | rfl
  · exact hcase'
  · exact Or.inr (hcase'.elim id id)

/-- The columns other than `revoked`, and the issuer, stay. -/
theorem Persists.columns (hst : Persists s t) (hk : s.tokens.get? k = some row) :
    ∃ r', t.tokens.get? k = some r' ∧ r'.userId = row.userId ∧ r'.issuer = row.issuer ∧
      (row.revoked = true → r'.revoked = true) := by
  obtain ⟨r', hr', rfl | rfl⟩ := hst k row hk
  · exact ⟨r', hr', rfl, rfl, id⟩
  · exact ⟨row.revoke, hr', rfl, rfl, fun _ => rfl⟩

theorem Rely.refl (i : Thread) (s : World) : Rely i s s where
  respects := .refl i s.tokens
  persists := .of_rows fun _ => rfl
  began := rfl
  sweep := rfl
  swept := List.Subset.refl _

theorem Rely.trans (hst : Rely i s t) (htu : Rely i t u) : Rely i s u where
  respects := hst.respects.trans htu.respects
  persists := hst.persists.trans htu.persists
  began := htu.began.trans hst.began
  sweep := htu.sweep.trans hst.sweep
  swept := List.Subset.trans hst.swept htu.swept

theorem Drafted.empty (hp : s.tokens.pending i = []) : Drafted svc s i := by
  constructor <;> intros <;> simp_all

/-- The drafts of a call depend on nothing but what it has locked. -/
theorem Drafted.mono (hd : Drafted svc s i) (hc : s.tokens.Coherent) (hst : Rely i s t) :
    Drafted svc t i := by
  have hrows : ∀ k v, (k, v) ∈ s.tokens.pending i → t.tokens.get? k = s.tokens.get? k :=
    fun k v hv => hst.respects.rows k (hc i k v hv)
  constructor
  · intro k v r hv hk
    rw [hst.respects.pending] at hv
    exact hd.revokes k v r hv ((hrows k v hv).symm.trans hk)
  · intro k v hv hk
    rw [hst.respects.pending] at hv
    obtain ⟨hissuer, hsweep, hparent⟩ := hd.adds k v hv ((hrows k v hv).symm.trans hk)
    refine ⟨hissuer, hst.sweep.trans hsweep, fun h hh => ?_⟩
    obtain ⟨r, hr, hlive, huser, hpending⟩ := hparent h hh
    refine ⟨r, (hrows h _ hpending).trans hr, hlive, huser, ?_⟩
    rw [hst.respects.pending]
    exact hpending
  · intro k k' v v' hv hv' hk hk'
    rw [hst.respects.pending] at hv hv'
    exact hd.single k k' v v' hv hv' ((hrows k v hv).symm.trans hk)
      ((hrows k' v' hv').symm.trans hk')

theorem Revoking.mono (hr : Revoking i k s) (hc : s.tokens.Coherent) (hst : Rely i s t) :
    Revoking i k t := by
  obtain ⟨r, hk, hpending⟩ := hr
  refine ⟨r, (hst.respects.rows k (hc i k _ hpending)).trans hk, ?_⟩
  rw [hst.respects.pending]
  exact hpending

/-! ## What a commit publishes -/

/-- A commit puts the update over the rows of a user on record. -/
theorem World.mem_swept_commit {w : Sweep} : w ∈ (s.commit i).swept ↔
    w ∈ s.swept ∨ ∃ u seen, s.sweep i = some (u, seen) ∧ w = ⟨i, u, s.existing i u, seen⟩ := by
  cases hsweep : s.sweep i with
  | none => simp [World.commit, hsweep]
  | some x =>
    obtain ⟨u, seen⟩ := x
    simp [World.commit, hsweep, or_comm]

section Commit

variable (hd : Drafted svc s i)
include hd

theorem Drafted.current_of_mem (hv : (k, row.revoke) ∈ s.tokens.pending i)
    (hk : s.tokens.get? k = some row) : s.tokens.current i k = some row.revoke := by
  obtain ⟨v, hv'⟩ := Dict.exists_lookup_of_mem hv
  have heq : v = row.revoke := hd.revokes k v row (Dict.mem_of_lookup hv') hk
  rw [Table.current, hv', heq, Option.some_or]

theorem Drafted.current_of_row (hk : s.tokens.get? k = some row) :
    ∃ r', s.tokens.current i k = some r' ∧ (r' = row ∨ r' = row.revoke) := by
  cases hv : Dict.lookup k (s.tokens.pending i) with
  | none => exact ⟨row, by rw [Table.current, hv, Option.none_or, hk], Or.inl rfl⟩
  | some v =>
    have heq : v = row.revoke := hd.revokes k v row (Dict.mem_of_lookup hv) hk
    exact ⟨v, by rw [Table.current, hv, Option.some_or], Or.inr heq⟩

theorem Drafted.persists_commit : Persists s (s.commit i) := by
  intro k r hk
  obtain ⟨r', hr', hcase⟩ := hd.current_of_row hk
  exact ⟨r', (Table.commit_get? k).trans hr', hcase⟩

omit hd in
/-- A row that is new after a commit was written by the call. -/
theorem mem_pending_of_commit (hk : s.tokens.get? k = none)
    (hr : (s.commit i).tokens.get? k = some row) : (k, row) ∈ s.tokens.pending i := by
  have hcur : s.tokens.current i k = some row := (Table.commit_get? k).symm.trans hr
  rw [Table.current, hk, Option.or_none] at hcur
  exact Dict.mem_of_lookup hcur

/-- A commit is one step of the ledger. -/
theorem Drafted.ledger_commit : Ledger.Step (s.ledger svc) ((s.commit i).ledger svc) where
  keeps k e hk := by
    obtain ⟨r, hr, rfl⟩ := Option.map_eq_some_iff.mp hk
    obtain ⟨r', hr', huser, hissuer, hrevoked⟩ := hd.persists_commit.columns hr
    refine ⟨r'.token svc, by simp [World.ledger, hr'], huser, ?_, fun hlive => ?_⟩
    · exact congrArg (presented svc) hissuer
    · show r.revoked = false
      cases hrev : r.revoked with
      | false => rfl
      | true => exact absurd (hrevoked hrev) (by simpa [Row.token] using hlive)
  spends c e p hc he hp := by
    have hnone : s.tokens.get? c = none := by simpa [World.ledger] using hc
    obtain ⟨v, hv, rfl⟩ := Option.map_eq_some_iff.mp he
    obtain ⟨hissuer, -, hparent⟩ := hd.adds c v (mem_pending_of_commit hnone hv) hnone
    obtain ⟨r, hr, hlive, huser, hpending⟩ := hparent p (by rw [← hissuer]; exact hp)
    have hafter : (s.commit i).tokens.get? p = some r.revoke :=
      (Table.commit_get? p).trans (hd.current_of_mem hpending hr)
    refine ⟨r.token svc, r.revoke.token svc, by simp [World.ledger, hr], hlive, huser,
      by simp [World.ledger, hafter], ?_⟩
    simp [Row.token, Row.revoke]
  single c c' e e' hc hc' he he' := by
    have hnone : s.tokens.get? c = none := by simpa [World.ledger] using hc
    have hnone' : s.tokens.get? c' = none := by simpa [World.ledger] using hc'
    obtain ⟨v, hv, rfl⟩ := Option.map_eq_some_iff.mp he
    obtain ⟨v', hv', rfl⟩ := Option.map_eq_some_iff.mp he'
    exact hd.single c c' v v' (mem_pending_of_commit hnone hv) (mem_pending_of_commit hnone' hv')
      hnone hnone'

end Commit

/-! ## What one call does to the others -/

/-- A move that publishes nothing is no more than its effect on the mover. -/
theorem Sound.unpublished (hs : Sound svc s) (hrows : ∀ k, t.tokens.get? k = s.tokens.get? k)
    (hcoherent : t.tokens.Coherent)
    (hothers : ∀ j, i ≠ j → Table.Respects j s.tokens t.tokens ∧ t.began j = s.began j ∧
      t.sweep j = s.sweep j)
    (hswept : t.swept = s.swept) (hdrafted : Drafted svc t i)
    (hbegan : ∀ k r, (k, r) ∈ t.began i →
      ∃ r', s.tokens.get? k = some r' ∧ r'.userId = r.userId)
    (hcovers : ∀ u seen, t.sweep i = some (u, seen) → t.existing i u ⊆ seen) :
    Sound svc t ∧ ∀ j, i ≠ j → Rely j s t := by
  have hrely : ∀ j, i ≠ j → Rely j s t := fun j hij =>
    ⟨(hothers j hij).1, .of_rows hrows, (hothers j hij).2.1, (hothers j hij).2.2,
      hswept ▸ List.Subset.refl _⟩
  have hledger : t.ledger svc = s.ledger svc := by
    funext k
    simp only [World.ledger, hrows]
  refine ⟨⟨hcoherent, fun j => ?_, hledger ▸ hs.wellFormed, fun j k r hk => ?_,
    fun j u seen hseen => ?_, fun w hw => ?_⟩, hrely⟩
  · by_cases hij : i = j
    · exact hij ▸ hdrafted
    · exact (hs.drafted j).mono hs.coherent (hrely j hij)
  · rw [hrows]
    by_cases hij : i = j
    · subst hij
      exact hbegan k r hk
    · rw [(hrely j hij).began] at hk
      exact hs.began j k r hk
  · by_cases hij : i = j
    · subst hij
      exact hcovers u seen hseen
    · rw [(hrely j hij).sweep] at hseen
      have hexisting : t.existing j u = s.existing j u := by
        simp only [World.existing, (hrely j hij).began]
      rw [hexisting]
      exact hs.covers j u seen hseen
  · rw [hswept] at hw
    simp only [hrows]
    exact hs.swept w hw

/-- The same for a move inside the table. -/
theorem Sound.draft (hs : Sound svc s) {T : Table Thread Hash Row}
    (hrows : ∀ k, T.get? k = s.tokens.get? k) (hcoherent : T.Coherent)
    (hothers : ∀ j, i ≠ j → Table.Respects j s.tokens T)
    (hdrafted : Drafted svc { s with tokens := T } i) :
    Sound svc { s with tokens := T } ∧ ∀ j, i ≠ j → Rely j s { s with tokens := T } :=
  hs.unpublished hrows hcoherent (fun j hij => ⟨hothers j hij, rfl, rfl⟩) rfl hdrafted
    (hs.began i) (hs.covers i)

theorem Sound.lock (hs : Sound svc s) {T : Table Thread Hash Row}
    (h : s.tokens.lock i k = some T) :
    Sound svc { s with tokens := T } ∧ ∀ j, Rely j s { s with tokens := T } := by
  have hrely : ∀ j, Rely j s { s with tokens := T } := fun j =>
    ⟨Table.respects_lock h j, .of_rows (Table.lock_get? h), rfl, rfl, List.Subset.refl _⟩
  have hsound := hs.draft (i := i) (Table.lock_get? h) (hs.coherent.lock h)
    (fun j _ => Table.respects_lock h j) ((hs.drafted i).mono hs.coherent (hrely i))
  exact ⟨hsound.1, hrely⟩

/-- A call writes the revocation of a committed row. -/
theorem Sound.revoke (hs : Sound svc s) (hk : s.tokens.get? k = some row)
    {T : Table Thread Hash Row} (h : s.tokens.write i k row.revoke = some T) :
    Sound svc { s with tokens := T } ∧ ∀ j, i ≠ j → Rely j s { s with tokens := T } := by
  have hd := hs.drafted i
  have hrows := Table.write_get? h
  refine hs.draft hrows (hs.coherent.write h) (fun j hij => Table.respects_write h hij.symm) ?_
  have hmem : ∀ k' v, (k', v) ∈ T.pending i → T.get? k' = none → (k', v) ∈ s.tokens.pending i := by
    intro k' v hv hnone
    rw [Table.write_pending h] at hv
    rcases List.mem_cons.mp hv with heq | hv
    · cases heq
      rw [hrows, hk] at hnone
      cases hnone
    · exact hv
  constructor
  · intro k' v r hv hr
    rw [show _ = _ from Table.write_pending h] at hv
    rw [show _ = _ from hrows k'] at hr
    rcases List.mem_cons.mp hv with heq | hv
    · cases heq
      rw [hk] at hr
      cases hr
      rfl
    · exact hd.revokes k' v r hv hr
  · intro k' v hv hnone
    obtain ⟨hissuer, hsweep, hparent⟩ := hd.adds k' v (hmem k' v hv hnone)
      ((hrows k').symm.trans hnone)
    refine ⟨hissuer, hsweep, fun h' hh => ?_⟩
    obtain ⟨r, hr, hlive, huser, hpending⟩ := hparent h' hh
    refine ⟨r, (hrows h').trans hr, hlive, huser, ?_⟩
    show _ ∈ T.pending i
    rw [Table.write_pending h]
    exact List.mem_cons_of_mem _ hpending
  · intro k₁ k₂ v₁ v₂ hv₁ hv₂ hk₁ hk₂
    exact hd.single k₁ k₂ v₁ v₂ (hmem k₁ v₁ hv₁ hk₁) (hmem k₂ v₂ hv₂ hk₂)
      ((hrows k₁).symm.trans hk₁) ((hrows k₂).symm.trans hk₂)

/-- The call may add a row: it has added none and updates no family, and if it is an
exchange then it is about to revoke the token that was presented. -/
structure Ready (svc : Service) (s : World) (i : Thread) (user : UserId) : Prop where
  sweep : s.sweep i = none
  none_added : ∀ k v, (k, v) ∈ s.tokens.pending i → s.tokens.get? k ≠ none
  exchange : ∀ h, presented svc i = some h → ∃ r, s.tokens.get? h = some r ∧ r.revoked = false ∧
    r.userId = user ∧ (h, r.revoke) ∈ s.tokens.pending i

theorem Sound.add (hs : Sound svc s) (hready : Ready svc s i row.userId) (hissuer : row.issuer = i)
    (hk : s.tokens.get? k = none) {T : Table Thread Hash Row}
    (h : s.tokens.write i k row = some T) :
    Sound svc { s with tokens := T } ∧ ∀ j, i ≠ j → Rely j s { s with tokens := T } := by
  have hrows := Table.write_get? h
  refine hs.draft hrows (hs.coherent.write h) (fun j hij => Table.respects_write h hij.symm) ?_
  have hnew : ∀ k' v, (k', v) ∈ T.pending i → T.get? k' = none → k' = k ∧ v = row := by
    intro k' v hv hnone
    rw [Table.write_pending h] at hv
    rcases List.mem_cons.mp hv with heq | hv
    · exact Prod.mk.inj heq
    · exact absurd ((hrows k').symm.trans hnone) (hready.none_added k' v hv)
  constructor
  · intro k' v r hv hr
    rw [show _ = _ from Table.write_pending h] at hv
    rw [show _ = _ from hrows k'] at hr
    rcases List.mem_cons.mp hv with heq | hv
    · cases heq
      rw [hk] at hr
      cases hr
    · exact (hs.drafted i).revokes k' v r hv hr
  · intro k' v hv hnone
    obtain ⟨rfl, rfl⟩ := hnew k' v hv hnone
    refine ⟨hissuer, hready.sweep, fun h' hh => ?_⟩
    obtain ⟨r, hr, hlive, huser, hpending⟩ := hready.exchange h' hh
    refine ⟨r, (hrows h').trans hr, hlive, huser, ?_⟩
    show _ ∈ T.pending i
    rw [Table.write_pending h]
    exact List.mem_cons_of_mem _ hpending
  · intro k₁ k₂ v₁ v₂ hv₁ hv₂ hk₁ hk₂
    rw [(hnew k₁ v₁ hv₁ hk₁).1, (hnew k₂ v₂ hv₂ hk₂).1]

theorem Sound.close (hs : Sound svc s) (i : Thread) :
    Sound svc (s.close i) ∧ ∀ j, i ≠ j → Rely j s (s.close i) := by
  refine hs.unpublished (fun _ => rfl) hs.coherent.rollback (fun j hij => ?_) rfl
    (.empty Table.rollback_pending) (hs.began i) (fun u seen hseen => ?_)
  · exact ⟨Table.respects_rollback hij.symm, rfl, Function.update_of_ne hij.symm _ _⟩
  · rw [show (s.close i).sweep i = none from Function.update_self _ _ _] at hseen
    cases hseen

theorem Sound.openSession (hs : Sound svc s) (hsweep : s.sweep i = none) :
    Sound svc (s.openSession i) ∧ ∀ j, i ≠ j → Rely j s (s.openSession i) := by
  have hd := hs.drafted i
  refine hs.unpublished (fun _ => rfl) hs.coherent (fun j hij => ?_) rfl
    ⟨hd.revokes, hd.adds, hd.single⟩ (fun k r hk => ?_) (fun u seen hseen => ?_)
  · exact ⟨.refl j s.tokens, Function.update_of_ne hij.symm _ _, rfl⟩
  · rw [show (s.openSession i).began i = s.tokens.rows.items from Function.update_self _ _ _] at hk
    exact ⟨r, Dict.mem_items_iff.mp hk, rfl⟩
  · rw [show (s.openSession i).sweep i = none from hsweep] at hseen
    cases hseen

theorem mem_matching {w : Where} :
    k ∈ s.matching w ↔ ∃ r, s.tokens.get? k = some r ∧ w.holds (k, r) = true := by
  simp only [World.matching, List.mem_map, List.mem_filter]
  constructor
  · rintro ⟨⟨k', r⟩, ⟨hmem, hw⟩, rfl⟩
    exact ⟨r, Dict.mem_items_iff.mp hmem, hw⟩
  · rintro ⟨r, hr, hw⟩
    exact ⟨(k, r), ⟨Dict.mem_items_iff.mpr hr, hw⟩, rfl⟩

/-- The snapshot of an update over the rows of a user has every token that the user
had when the call began. -/
theorem Sound.existing_matching (hs : Sound svc s) (i : Thread) (u : UserId) :
    s.existing i u ⊆ s.matching (.userId u) := by
  intro k hk
  simp only [World.existing, List.mem_map, List.mem_filter, decide_eq_true_eq] at hk
  obtain ⟨⟨k', r⟩, ⟨hmem, huser⟩, rfl⟩ := hk
  obtain ⟨r', hr', huser'⟩ := hs.began i k' r hmem
  exact mem_matching.mpr ⟨r', hr', decide_eq_true (huser'.trans huser)⟩

theorem Sound.scanned (hs : Sound svc s) {w : Where} {hs' : List Hash}
    (hperm : hs'.Perm (s.matching w)) (hp : s.tokens.pending i = []) :
    Sound svc (s.scanned i w hs') ∧ ∀ j, i ≠ j → Rely j s (s.scanned i w hs') := by
  cases w with
  | tokenHash h => exact ⟨hs, fun j _ => Rely.refl j s⟩
  | userId u =>
    refine hs.unpublished (fun _ => rfl) hs.coherent (fun j hij => ?_) rfl (.empty hp) (hs.began i)
      (fun u' seen hseen => ?_)
    · exact ⟨.refl j s.tokens, rfl, Function.update_of_ne hij.symm _ _⟩
    · rw [show (s.scanned i (.userId u) hs').sweep i = some (u, hs') from
        Function.update_self _ _ _] at hseen
      cases hseen
      exact fun k hk => hperm.symm.subset (hs.existing_matching i u hk)

/-- Whoever commits a family update has written the revocation of its whole snapshot. -/
theorem Sound.commit (hs : Sound svc s) (i : Thread)
    (hseen : ∀ u seen, s.sweep i = some (u, seen) → ∀ k ∈ seen, Revoking i k s) :
    Sound svc (s.commit i) ∧ ∀ j, i ≠ j → Rely j s (s.commit i) := by
  have hd := hs.drafted i
  have hpersists := hd.persists_commit
  have hold : s.swept ⊆ (s.commit i).swept := fun w hw => World.mem_swept_commit.mpr (Or.inl hw)
  have hrely : ∀ j, i ≠ j → Rely j s (s.commit i) := fun j hij =>
    ⟨hs.coherent.respects_commit hij.symm, hpersists, rfl, Function.update_of_ne hij.symm _ _, hold⟩
  refine ⟨⟨hs.coherent.commit, fun j => ?_, hs.wellFormed.step hd.ledger_commit, fun j k r hk => ?_,
    fun j u seen hsweep => ?_, fun w hw => ?_⟩, hrely⟩
  · by_cases hij : i = j
    · subst hij
      exact .empty Table.rollback_pending
    · exact (hs.drafted j).mono hs.coherent (hrely j hij)
  · obtain ⟨r', hr', huser⟩ := hs.began j k r hk
    obtain ⟨r'', hr'', huser', -⟩ := hpersists.columns hr'
    exact ⟨r'', hr'', huser'.trans huser⟩
  · by_cases hij : i = j
    · subst hij
      rw [show (s.commit i).sweep i = none from Function.update_self _ _ _] at hsweep
      cases hsweep
    · rw [(hrely j hij).sweep] at hsweep
      exact hs.covers j u seen hsweep
  · rcases World.mem_swept_commit.mp hw with hw | ⟨u, seen, hsweep, rfl⟩
    · refine ⟨(hs.swept w hw).1, fun k hk => ?_⟩
      obtain ⟨r, hr, hrev⟩ := (hs.swept w hw).2 k hk
      obtain ⟨r', hr', -, -, hrev'⟩ := hpersists.columns hr
      exact ⟨r', hr', hrev' hrev⟩
    · refine ⟨hs.covers i u seen hsweep, fun k hk => ?_⟩
      obtain ⟨r, hr, hpending⟩ := hseen u seen hsweep k hk
      exact ⟨r.revoke, (Table.commit_get? k).trans (hd.current_of_mem hpending hr), rfl⟩

theorem Sound.event (hs : Sound svc s) (e : Event) :
    Sound svc (e.apply s) ∧ ∀ j, Rely j s (e.apply s) := by
  have hrely : ∀ j, Rely j s (e.apply s) := by
    intro j
    cases e with
    | advance d => exact ⟨.refl j s.tokens, .of_rows fun _ => rfl, rfl, rfl, List.Subset.refl _⟩
    | users us => exact ⟨.refl j s.tokens, .of_rows fun _ => rfl, rfl, rfl, List.Subset.refl _⟩
  have hdrafted : ∀ j, Drafted svc (e.apply s) j := fun j =>
    (hs.drafted j).mono hs.coherent (hrely j)
  refine ⟨?_, hrely⟩
  cases e with
  | advance d => exact ⟨hs.coherent, hdrafted, hs.wellFormed, hs.began, hs.covers, hs.swept⟩
  | users us => exact ⟨hs.coherent, hdrafted, hs.wellFormed, hs.began, hs.covers, hs.swept⟩

end Auth
end AdaptiveGateway
