/-
The retry budget survives crashes.

Every upstream request is made under a lease that has written the attempts hash
before, and a lease sends at most once.  As long as a lease does not run out
before its write, the attempts of an entry cannot change between the reading and
the writing of its holder, so every write raises the count by one.
-/
import AdaptiveGateway.Queue.Lease
import Mathlib.Data.List.Perm.Subperm

namespace AdaptiveGateway
namespace Queue

open Codec Concurrent

variable {i : Thread} {s s' : World} {m : EntryId} {cfg : Config} {writes : Nat → Write}

/-- The leases under which the attempts of an entry were written. -/
def spendings (m : EntryId) (log : List Event) : List (Option Token) :=
  log.filterMap fun e => match e with
    | .wrote m' t => if m' = m then some t else none
    | _ => none

/-- The leases under which upstream requests for an entry were issued, one for
each request. -/
def requests (m : EntryId) (log : List Event) : List (Option Token) :=
  log.filterMap fun e => match e with
    | .sent m' t _ => if m' = m then some t else none
    | _ => none

theorem mem_spendings {t : Option Token} {log : List Event} :
    t ∈ spendings m log ↔ Event.wrote m t ∈ log := by
  simp only [spendings, List.mem_filterMap]
  constructor
  · rintro ⟨e, he, hm⟩
    split at hm
    next m' t' =>
      split at hm
      next hmm =>
        cases hm
        rw [← hmm]
        exact he
      next => cases hm
    next => cases hm
  · intro h
    exact ⟨_, h, by simp⟩

theorem mem_requests {t : Option Token} {log : List Event} :
    t ∈ requests m log ↔ ∃ req, Event.sent m t req ∈ log := by
  simp only [requests, List.mem_filterMap]
  constructor
  · rintro ⟨e, he, hm⟩
    split at hm
    next m' t' req =>
      split at hm
      next hmm =>
        cases hm
        rw [← hmm]
        exact ⟨req, he⟩
      next => cases hm
    next => cases hm
  · rintro ⟨req, h⟩
    exact ⟨_, h, by simp⟩

/-! ## The invariant -/

/-- The lease has not been used to write the attempts yet. -/
def unspent (s : World) (h : Held) : Prop := Event.wrote h.id (some h.token) ∉ s.log

structure Budgeted (limit : Nat) (s : World) : Prop extends Leases unspent s where
  fresh : ∀ m t, Event.wrote m (some t) ∈ s.log → t.serial < s.nextSerial
  counted : ∀ m, Event.xacked m ∉ s.log → (spendings m s.log).length = (s.attempts m).getD 0
  capped : ∀ m, Event.xacked m ∉ s.log → (s.attempts m).getD 0 ≤ limit
  paid : ∀ m t req, Event.sent m t req ∈ s.log → Event.wrote m t ∈ s.log
  once : ∀ m, (requests m s.log).Nodup

theorem budgeted_start (limit : Nat) : Budgeted limit {} where
  toLeases := leases_start
  fresh := by simp
  counted := by simp [spendings]
  capped := by simp
  paid := by simp
  once := by simp [requests]

/-- Requests are at most as many as writes of the attempts. -/
theorem Budgeted.requests_le {limit : Nat} (hs : Budgeted limit s) (m : EntryId) :
    (requests m s.log).length ≤ (spendings m s.log).length := by
  have hsub : requests m s.log ⊆ spendings m s.log := by
    intro t ht
    obtain ⟨req, hreq⟩ := mem_requests.mp ht
    exact mem_spendings.mpr (hs.paid m t req hreq)
  exact ((hs.once m).subperm hsub).length_le

/-! ## What the tasks rely on -/

/-- The event was caused under a lease of the thread. -/
def Event.ownedBy (i : Thread) : Event → Prop
  | .wrote _ (some t) => t.owner = i
  | .sent _ (some t) _ => t.owner = i
  | _ => False

/-- What thread `i` may rely on. -/
structure Rely (i : Thread) (s s' : World) : Prop where
  held : s'.heldBy i = s.heldBy i
  serial : s.nextSerial ≤ s'.nextSerial
  log : s.log ⊆ s'.log
  own : ∀ e : Event, e.ownedBy i → e ∈ s'.log → e ∈ s.log
  attempts : ∀ h ∈ s.heldBy i, h.token.owner = i → unspent s h → Event.xacked h.id ∉ s'.log →
    s'.attempts h.id = s.attempts h.id

theorem Rely.refl (i : Thread) (s : World) : Rely i s s :=
  ⟨rfl, Nat.le_refl _, List.Subset.refl _, fun _ _ h => h, fun _ _ _ _ _ => rfl⟩

theorem Rely.trans {u : World} (h : Rely i s s') (h' : Rely i s' u) : Rely i s u := by
  refine ⟨h'.held.trans h.held, Nat.le_trans h.serial h'.serial,
    List.Subset.trans h.log h'.log, fun e he hu => h.own e he (h'.own e he hu), ?_⟩
  intro x hx hown hunspent hack
  have hack' : Event.xacked x.id ∉ s'.log := fun hin => hack (h'.log hin)
  have hunspent' : unspent s' x := fun hin => hunspent (h.own _ hown hin)
  rw [h'.attempts x (h.held ▸ hx) hown hunspent' hack, h.attempts x hx hown hunspent hack']

/-- What thread `i` does to the others. -/
structure Guarantee (i : Thread) (s s' : World) : Prop where
  held : ∀ j, i ≠ j → s'.heldBy j = s.heldBy j
  serial : s.nextSerial ≤ s'.nextSerial
  log : s.log ⊆ s'.log
  own : ∀ j, i ≠ j → ∀ e : Event, e.ownedBy j → e ∈ s'.log → e ∈ s.log
  attempts : ∀ m, Event.xacked m ∉ s'.log → s'.attempts m = s.attempts m ∨
    ∃ h ∈ s.heldBy i, h.id = m ∧ unspent s h

theorem Guarantee.rely {j : Thread} {limit : Nat} (hs : Budgeted limit s) (hij : i ≠ j)
    (h : Guarantee i s s') : Rely j s s' := by
  refine ⟨h.held j hij, h.serial, h.log, h.own j hij, fun x hx _ hunspent hack => ?_⟩
  rcases h.attempts x.id hack with heq | ⟨y, hy, hid, hy'⟩
  · exact heq
  · -- Two unspent leases of one entry have the same holder.
    obtain ⟨hx, hxj⟩ := mem_heldBy.mp hx
    obtain ⟨hy, hyi⟩ := mem_heldBy.mp hy
    exact absurd (hyi.symm.trans ((hs.exclusive hy hx hy' hunspent hid).trans hxj)) hij

/-! ## What a phase says about the budget -/

def Stage.Budget (m : EntryId) (t : Token) : Stage → World → Prop
  | .fresh, s => some t ∉ spendings m s.log ∧ some t ∉ requests m s.log
  | .counted n, s => some t ∉ spendings m s.log ∧ some t ∉ requests m s.log ∧
      (Event.xacked m ∉ s.log → (s.attempts m).getD 0 = n)
  | .spent, s => some t ∈ spendings m s.log ∧ some t ∉ requests m s.log
  | .closed, _ => True
  | .acked, s => Event.xacked m ∈ s.log
  | .deleted, s => Event.xacked m ∈ s.log

def Phase.Budget : Phase → World → Prop
  | .free, _ => True
  | .drawn t, s => ∀ m, some t ∉ spendings m s.log ∧ some t ∉ requests m s.log
  | .leased m t stage, s => stage.Budget m t s

/-- What a phase says survives as long as nobody uses its token and nobody else
spends attempts. -/
theorem Stage.Budget.keep {t : Token} {stage : Stage} (h : stage.Budget m t s)
    (hlog : s.log ⊆ s'.log)
    (hspend : some t ∈ spendings m s'.log → some t ∈ spendings m s.log)
    (hsend : some t ∈ requests m s'.log → some t ∈ requests m s.log)
    (hattempts : some t ∉ spendings m s.log → Event.xacked m ∉ s'.log →
      s'.attempts m = s.attempts m) : stage.Budget m t s' := by
  cases stage with
  | fresh => exact ⟨fun hin => h.1 (hspend hin), fun hin => h.2 (hsend hin)⟩
  | counted n =>
    refine ⟨fun hin => h.1 (hspend hin), fun hin => h.2.1 (hsend hin), fun hack => ?_⟩
    rw [hattempts h.1 hack]
    exact h.2.2 fun hin => hack (hlog hin)
  | spent =>
    exact ⟨mem_spendings.mpr (hlog (mem_spendings.mp h.1)), fun hin => h.2 (hsend hin)⟩
  | closed => trivial
  | acked => exact hlog h
  | deleted => exact hlog h

theorem Rely.spendings {t : Token} (h : Rely i s s') (ht : t.owner = i)
    (hin : some t ∈ spendings m s'.log) : some t ∈ spendings m s.log :=
  mem_spendings.mpr (h.own _ ht (mem_spendings.mp hin))

theorem Rely.requests {t : Token} (h : Rely i s s') (ht : t.owner = i)
    (hin : some t ∈ requests m s'.log) : some t ∈ requests m s.log := by
  obtain ⟨req, hreq⟩ := mem_requests.mp hin
  exact mem_requests.mpr ⟨req, h.own _ ht hreq⟩

theorem Phase.stable {limit : Nat} {φ : Phase} (hI : Budgeted limit s) (hs : φ.Holds i s)
    (hb : φ.Budget s) (h : Rely i s s') : φ.Holds i s' ∧ φ.Budget s' := by
  cases φ with
  | free => exact ⟨h.held.trans hs, trivial⟩
  | drawn t =>
    obtain ⟨hfree, hown, hserial⟩ := hs
    refine ⟨⟨h.held.trans hfree, hown, Nat.lt_of_lt_of_le hserial h.serial⟩, fun m => ?_⟩
    exact ⟨fun hin => (hb m).1 (h.spendings hown hin), fun hin => (hb m).2 (h.requests hown hin)⟩
  | leased m t stage =>
    have hone : s.heldBy i = [⟨i, m, t⟩] := hs
    have hin : (⟨i, m, t⟩ : Held) ∈ s.heldBy i := hone ▸ List.mem_singleton_self _
    have hown : t.owner = i := hI.owned _ (mem_heldBy.mp hin).1
    refine ⟨h.held.trans hone, Stage.Budget.keep hb h.log (h.spendings hown) (h.requests hown) ?_⟩
    intro hunspent hack
    exact h.attempts _ hin hown (fun hw => hunspent (mem_spendings.mpr hw)) hack

/-! ## One command -/

theorem spendings_cons_wrote (m : EntryId) (t : Option Token) (m' : EntryId) (log : List Event) :
    spendings m' (.wrote m t :: log) =
      if m = m' then t :: spendings m' log else spendings m' log := by
  simp only [spendings, List.filterMap_cons]
  split <;> simp_all

theorem requests_cons_sent (m : EntryId) (t : Option Token)
    (req : HttpRequest (Dict Text Json)) (m' : EntryId) (log : List Event) :
    requests m' (.sent m t req :: log) =
      if m = m' then t :: requests m' log else requests m' log := by
  simp only [requests, List.filterMap_cons]
  split <;> simp_all

theorem exec_spendings {c : Cmd} {ch : Choice} {r : Except Exc (Ans c)}
    (h : exec i c ch s = some (r, s')) :
    (∀ m, spendings m s'.log = spendings m s.log) ∨
      ∃ m n, c = .hsetAttempts m n ∧ s'.log = .wrote m (s.tokenOf i m) :: s.log := by
  obtain hl | ⟨e, he, hl⟩ := exec_log h
  · exact Or.inl fun m => by rw [hl]
  · cases e with
    | wrote m t =>
      obtain ⟨n, hc, rfl⟩ := he.cmd
      exact Or.inr ⟨m, n, hc, hl⟩
    | _ => exact Or.inl fun m => by rw [hl]; rfl

theorem exec_requests {c : Cmd} {ch : Choice} {r : Except Exc (Ans c)}
    (h : exec i c ch s = some (r, s')) :
    (∀ m, requests m s'.log = requests m s.log) ∨
      ∃ m req, c = .send m req ∧ s'.log = .sent m (s.tokenOf i m) req :: s.log := by
  obtain hl | ⟨e, he, hl⟩ := exec_log h
  · exact Or.inl fun m => by rw [hl]
  · cases e with
    | sent m t req =>
      obtain ⟨hc, rfl⟩ := he.cmd
      exact Or.inr ⟨m, req, hc, hl⟩
    | _ => exact Or.inl fun m => by rw [hl]; rfl

section Step

variable {limit : Nat} {φ : Phase} {c : Cmd} {ch : Choice} {r : Except Exc (Ans c)}

/-- The attempts are written under a lease that has counted them and has neither
written nor sent. -/
theorem Phase.of_hsetAttempts {n : Nat} (hallow : φ.allows limit (.hsetAttempts m n))
    (hs : φ.Holds i s) (hb : φ.Budget s) :
    ∃ t k, s.heldBy i = [⟨i, m, t⟩] ∧ n = k + 1 ∧ n ≤ limit ∧
      (Stage.counted k).Budget m t s := by
  cases φ with
  | leased m' t stage =>
    obtain ⟨rfl, k, rfl, rfl, hn⟩ := hallow
    exact ⟨t, k, hs, rfl, hn, hb⟩
  | free => exact hallow.elim
  | drawn => exact hallow.elim

theorem Phase.of_send {req : HttpRequest (Dict Text Json)}
    (hallow : φ.allows limit (.send m req)) (hs : φ.Holds i s) (hb : φ.Budget s) :
    ∃ t, s.heldBy i = [⟨i, m, t⟩] ∧ some t ∈ spendings m s.log ∧
      some t ∉ requests m s.log := by
  cases φ with
  | leased m' t stage =>
    obtain ⟨rfl, rfl⟩ := hallow
    exact ⟨t, hs, hb⟩
  | free => exact hallow.elim
  | drawn => exact hallow.elim

theorem Phase.of_hdelAttempts (hallow : φ.allows limit (.hdelAttempts m)) (hb : φ.Budget s) :
    Event.xacked m ∈ s.log := by
  cases φ with
  | leased m' t stage =>
    obtain ⟨rfl, rfl⟩ := hallow
    exact hb
  | free => exact hallow.elim
  | drawn => exact hallow.elim

/-- The counters of the attempts after a command. -/
theorem exec_counted (hI : Budgeted limit s) (hallow : φ.allows limit c) (hs : φ.Holds i s)
    (hb : φ.Budget s) (h : exec i c ch s = some (r, s')) {m : EntryId}
    (hack : Event.xacked m ∉ s'.log) :
    (spendings m s'.log).length = (s'.attempts m).getD 0 ∧ (s'.attempts m).getD 0 ≤ limit := by
  have hack' : Event.xacked m ∉ s.log := fun hin => hack ((exec_grows h).log hin)
  have hcount := hI.counted m hack'
  have hcap := hI.capped m hack'
  obtain ⟨hat, hnew⟩ | ⟨m', n, rfl, hat, hlog⟩ | ⟨m', rfl, hat⟩ := exec_attempts h
  · rw [hat]
    obtain hsp | ⟨m', n, hc, hl⟩ := exec_spendings h
    · rw [hsp]
      exact ⟨hcount, hcap⟩
    · rw [hnew m' n hc]
      exact ⟨hcount, hcap⟩
  · obtain ⟨t, k, hone, rfl, hn, -, -, hk⟩ := Phase.of_hsetAttempts hallow hs hb
    rw [hat, hlog, spendings_cons_wrote]
    by_cases hm : m' = m
    · subst hm
      simp [hcount, hk hack', hn]
    · rw [if_neg hm, Function.update_of_ne (Ne.symm hm)]
      exact ⟨hcount, hcap⟩
  · have hm : m ≠ m' := by
      rintro rfl
      exact hack' (Phase.of_hdelAttempts hallow hb)
    obtain hsp | ⟨m'', n, hc, hl⟩ := exec_spendings h
    · rw [hat, hsp, Function.update_of_ne hm]
      exact ⟨hcount, hcap⟩
    · cases hc

theorem exec_budgeted (hI : Budgeted limit s) (hallow : φ.allows limit c) (hs : φ.Holds i s)
    (hb : φ.Budget s) (h : exec i c ch s = some (r, s')) : Budgeted limit s' := by
  have hgrow := exec_grows h
  refine ⟨exec_leases hI.toLeases hallow hs (fun x _ hx hin => hx (hgrow.log hin)) h, ?_,
    fun m hack => (exec_counted hI hallow hs hb h hack).1,
    fun m hack => (exec_counted hI hallow hs hb h hack).2, ?_, ?_⟩
  · intro m t hin
    refine Nat.lt_of_lt_of_le ?_ (exec_nextSerial h)
    rw [← mem_spendings] at hin
    obtain hsp | ⟨m', n, rfl, hl⟩ := exec_spendings h
    · rw [hsp] at hin
      exact hI.fresh m t (mem_spendings.mp hin)
    · obtain ⟨t', k, hone, -⟩ := Phase.of_hsetAttempts hallow hs hb
      rw [hl, mem_spendings, tokenOf_eq hone] at hin
      rcases List.mem_cons.mp hin with heq | hin
      · cases heq
        exact hI.issued _ (mem_heldBy.mp (hone ▸ List.mem_singleton_self _)).1
      · exact hI.fresh m t hin
  · intro m t req hin
    have hin' := mem_requests.mpr ⟨req, hin⟩
    obtain hrq | ⟨m', req', rfl, hl⟩ := exec_requests h
    · rw [hrq] at hin'
      obtain ⟨req', hreq'⟩ := mem_requests.mp hin'
      exact hgrow.log (hI.paid m t req' hreq')
    · obtain ⟨t', hone, hspent, -⟩ := Phase.of_send hallow hs hb
      rw [hl, tokenOf_eq hone] at hin
      rcases List.mem_cons.mp hin with heq | hin
      · cases heq
        exact hgrow.log (mem_spendings.mp hspent)
      · exact hgrow.log (hI.paid m t req hin)
  · intro m
    obtain hrq | ⟨m', req', rfl, hl⟩ := exec_requests h
    · rw [hrq]
      exact hI.once m
    · obtain ⟨t', hone, -, hunsent⟩ := Phase.of_send hallow hs hb
      rw [hl, tokenOf_eq hone, requests_cons_sent]
      by_cases hm : m' = m
      · subst hm
        rw [if_pos rfl]
        exact List.nodup_cons.mpr ⟨hunsent, hI.once m'⟩
      · rw [if_neg hm]
        exact hI.once m

theorem exec_guarantee (hI : Budgeted limit s) (hallow : φ.allows limit c) (hs : φ.Holds i s)
    (hb : φ.Budget s) (h : exec i c ch s = some (r, s')) : Guarantee i s s' := by
  have hgrow := exec_grows h
  refine ⟨fun j hij => exec_heldBy_other hij h, exec_nextSerial h, hgrow.log, ?_, ?_⟩
  · intro j hij e he hin
    obtain hl | ⟨e', he', hl⟩ := exec_log h <;> rw [hl] at hin
    · exact hin
    · rcases List.mem_cons.mp hin with rfl | hin
      · -- A new event carries the token its thread holds.
        have hown : ∀ m t, s.heldBy i = [⟨i, m, t⟩] → t.owner = i := fun m t hone =>
          hI.owned ⟨i, m, t⟩ (mem_heldBy.mp (hone ▸ List.mem_singleton_self _)).1
        cases e with
        | wrote m t =>
          obtain ⟨n, rfl, rfl⟩ := he'.cmd
          obtain ⟨t, k, hone, -⟩ := Phase.of_hsetAttempts hallow hs hb
          rw [tokenOf_eq hone] at he
          exact absurd ((hown m t hone).symm.trans he) hij
        | sent m t req =>
          obtain ⟨rfl, rfl⟩ := he'.cmd
          obtain ⟨t, hone, -⟩ := Phase.of_send hallow hs hb
          rw [tokenOf_eq hone] at he
          exact absurd ((hown m t hone).symm.trans he) hij
        | _ => exact he.elim
      · exact hin
  · intro m hack
    obtain ⟨hat, -⟩ | ⟨m', n, rfl, hat, -⟩ | ⟨m', rfl, hat⟩ := exec_attempts h
    · exact Or.inl (by rw [hat])
    · obtain ⟨t, k, hone, -, -, hunspent, -⟩ := Phase.of_hsetAttempts hallow hs hb
      by_cases hm : m = m'
      · subst hm
        exact Or.inr ⟨_, hone ▸ List.mem_singleton_self _, rfl,
          fun hin => hunspent (mem_spendings.mpr hin)⟩
      · exact Or.inl (by rw [hat, Function.update_of_ne hm])
    · have hm : m ≠ m' := by
        rintro rfl
        exact hack (hgrow.log (Phase.of_hdelAttempts hallow hb))
      exact Or.inl (by rw [hat, Function.update_of_ne hm])

/-- A stage that a command does not leave keeps its reading. -/
theorem exec_stage_keep {t : Token} {stage : Stage} (hb : stage.Budget m t s)
    (hset : ∀ m n, c ≠ .hsetAttempts m n) (hsend : ∀ m req, c ≠ .send m req)
    (hdel : c = .hdelAttempts m → stage = .deleted) (h : exec i c ch s = some (r, s')) :
    stage.Budget m t s' := by
  have hgrow := exec_grows h
  have hsp : spendings m s'.log = spendings m s.log := by
    obtain hsp | ⟨m', n, hc, -⟩ := exec_spendings h
    · exact hsp m
    · exact absurd hc (hset m' n)
  have hrq : requests m s'.log = requests m s.log := by
    obtain hrq | ⟨m', req, hc, -⟩ := exec_requests h
    · exact hrq m
    · exact absurd hc (hsend m' req)
  obtain ⟨hat, -⟩ | ⟨m', n, hc, -⟩ | ⟨m', hc, hat⟩ := exec_attempts h
  · exact hb.keep hgrow.log (by rw [hsp]; exact id) (by rw [hrq]; exact id)
      fun _ _ => by rw [hat]
  · exact absurd hc (hset m' n)
  · by_cases hm : m' = m
    · subst hm
      obtain rfl := hdel hc
      exact hgrow.log hb
    · exact hb.keep hgrow.log (by rw [hsp]; exact id) (by rw [hrq]; exact id)
        fun _ _ => by rw [hat, Function.update_of_ne (Ne.symm hm)]

theorem exec_phase (hI : Budgeted limit s) (hallow : φ.allows limit c) (hs : φ.Holds i s)
    (hb : φ.Budget s) (h : exec i c ch s = some (r, s')) : (φ.next c r).Budget s' := by
  cases φ with
  | free =>
    cases c with
    | tokenHex =>
      cases r with
      | error e => trivial
      | ok t =>
        -- The serial number has not been drawn before.
        obtain ⟨u, s₁, hp, rfl⟩ := exec_ok h
        cases hp
        intro m
        have hfresh : some (⟨i, s.nextSerial⟩ : Token) ∉ spendings m s.log := fun hin =>
          absurd (hI.fresh m _ (mem_spendings.mp hin)) (Nat.lt_irrefl _)
        refine ⟨hfresh, fun hin => hfresh ?_⟩
        obtain ⟨req, hreq⟩ := mem_requests.mp hin
        exact mem_spendings.mpr (hI.paid m _ req hreq)
    | time | cursor | setCursor | xgroupCreate | xadd | xreadgroup | xautoclaim => trivial
    | _ => exact hallow.elim
  | drawn t =>
    cases c with
    | setNx m t' n =>
      cases hallow
      cases r with
      | error e => trivial
      | ok b =>
        cases b with
        | false => trivial
        | true =>
          have hfresh : Stage.fresh.Budget m t s := hb m
          exact exec_stage_keep hfresh (by simp) (by simp) (by simp) h
    | _ => exact hallow.elim
  | leased m t stage =>
    cases c with
    | getDel m' t' => trivial
    | hgetAttempts m' =>
      obtain rfl : m' = m := hallow
      have hkeep := exec_stage_keep hb (by simp) (by simp) (by simp) h
      cases r with
      | error e => cases stage <;> exact hkeep
      | ok n =>
        cases stage with
        | fresh =>
          obtain ⟨u, s₁, hp, rfl⟩ := exec_ok h
          cases hp
          exact ⟨hkeep.1, hkeep.2, fun _ => rfl⟩
        | _ => exact hkeep
    | hsetAttempts m' n =>
      obtain ⟨rfl, k, rfl, -, -⟩ := hallow
      cases r with
      | error e => trivial
      | ok _ =>
        obtain ⟨u, s₁, hp, rfl⟩ := exec_ok h
        cases hp
        have hone : s.heldBy i = [⟨i, m', t⟩] := hs
        refine ⟨?_, hb.2.1⟩
        rw [mem_spendings, tokenOf_eq hone]
        exact List.mem_cons_self
    | send m' req => trivial
    | xack m' =>
      obtain rfl : m' = m := hallow
      cases r with
      | error e => trivial
      | ok _ =>
        obtain ⟨u, s₁, hp, rfl⟩ := exec_ok h
        cases hp
        exact List.mem_cons_self
    | time | hgetDue | hsetDue | commit | recv =>
      exact exec_stage_keep hb (by simp) (by simp) (by simp) h
    | xdel m' =>
      obtain ⟨rfl, rfl⟩ := hallow
      cases r with
      | error e => trivial
      | ok _ =>
        have hxacked : Event.xacked m' ∈ s.log := hb
        exact (exec_grows h).log hxacked
    | hdelDue m' => exact exec_stage_keep hb (by simp) (by simp) (by simp) h
    | hdelAttempts m' =>
      obtain ⟨rfl, rfl⟩ := hallow
      have hdeleted : Stage.deleted.Budget m' t s := hb
      exact exec_stage_keep hdeleted (by simp) (by simp) (fun _ => rfl) h
    | _ => exact hallow.elim

end Step

/-! ## Runs -/

/-- No lease runs out between its acquisition and the write of the attempts that
follows it. -/
def leaseOutlastsWrite : Guard Thread Cmd World Choice Time where
  act _ _ _ _ := True
  crash _ _ := True
  env d s := ∀ h ∈ s.held, unspent s h → ∀ l, s.lock h.id = some l → l.token = h.token →
    s.now + d < l.expires

def budget (cfg : Config) (writes : Nat → Write) :
    Contract (machine cfg writes) leaseOutlastsWrite where
  I := Budgeted (maxAttempts cfg)
  R := Rely
  G := Guarantee
  Q i _ s := s.heldBy i = []
  refl := Rely.refl
  trans _ _ _ _ := Rely.trans
  others _ _ _ _ hij hI _ h := h.rely hI hij
  env d s s' hg hI h := by
    cases h
    refine ⟨⟨hI.toLeases.advance (fun _ _ h => h) hg, hI.fresh, hI.counted, hI.capped, hI.paid,
      hI.once⟩, fun j => ?_⟩
    exact ⟨rfl, Nat.le_refl _, List.Subset.refl _, fun _ _ h => h, fun _ _ _ _ _ => rfl⟩
  crash i s _ hI := by
    refine ⟨⟨hI.toLeases.dropThread fun _ _ h => h, hI.fresh, hI.counted, hI.capped, hI.paid,
      hI.once⟩, fun j hij => ?_⟩
    exact ⟨heldBy_dropThread hij, Nat.le_refl _, List.Subset.refl _, fun _ _ h => h,
      fun _ _ _ _ _ => rfl⟩

theorem budget_wp {p : Prog (Option EntryId)}
    (hp : p.Follows (leaseProtocol cfg) .free fun _ φ => φ = .free) (hs : s.heldBy i = []) :
    p.wp ((budget cfg writes).pact i) ((budget cfg writes).Q i) s := by
  refine Prog.wp_mono ?_ (Prog.wp_of_follows (J := fun (φ : Phase) s => φ.Holds i s ∧ φ.Budget s)
    hp ?_ ⟨hs, trivial⟩)
  · rintro r t ⟨_, rfl, hfree, -⟩
    exact hfree
  · rintro φ c s r s' hallow ⟨hs, hb⟩ ⟨ch, -, hI, hexec⟩
    have hI' : Budgeted (maxAttempts cfg) s' := exec_budgeted hI hallow hs hb hexec
    refine ⟨hI', exec_guarantee hI hallow hs hb hexec, fun t _ ht => ?_⟩
    exact Phase.stable hI' (exec_holds hallow hs hexec) (exec_phase hI hallow hs hb hexec) ht

/-- As long as no lease runs out before its write, an entry that has not been
acknowledged has been sent at most as often as its persisted attempts say, and
these stay within the budget. -/
theorem requests_within_persisted_budget
    {q : Pool Thread Cmd Ans Exc (Option EntryId) World}
    (hq : (machine cfg writes).Reach leaseOutlastsWrite ((machine cfg writes).start {}) q)
    {m : EntryId} (hm : Event.xacked m ∉ q.state.log) :
    (requests m q.state.log).length ≤ (q.state.attempts m).getD 0 ∧
      (q.state.attempts m).getD 0 ≤ cfg.settings.queueMaxRetries + 1 := by
  have hI : Budgeted (maxAttempts cfg) q.state := by
    refine ((budget cfg writes).sound (budgeted_start _) ?_ ?_ hq).1
    · intro i t _ ht
      exact budget_wp boot_follows ht.held
    · intro i r p t h _ hfree
      exact budget_wp (again_follows h) hfree
  refine ⟨?_, hI.capped m hm⟩
  rw [← hI.counted m hm]
  exact hI.requests_le m

/-- A worker crashes with its request on the way; another one takes the entry over
and sends it again. -/
def crashAfterSend : List (Label Thread Choice Time) :=
  steps (.client 0) 2 ++ steps (.worker 0) 11 ++
    [.crash (.worker 0), .env (seconds 61)] ++ steps (.worker 1) 15

/-- Time passes only while nobody holds a lease. -/
def leasesIdle (p : Pool Thread Cmd Ans Exc (Option EntryId) World) : Label Thread Choice Time → Bool
  | .env _ => p.state.held.isEmpty
  | _ => true

theorem allows_of_leasesIdle (p : Pool Thread Cmd Ans Exc (Option EntryId) World)
    (l : Label Thread Choice Time) (h : leasesIdle p l = true) : leaseOutlastsWrite.allows p l := by
  cases l with
  | act i ch =>
    simp only [Guard.allows]
    split <;> trivial
  | loop i => trivial
  | crash i => trivial
  | env d =>
    intro lease hlease
    rw [List.isEmpty_iff.mp h] at hlease
    cases hlease

def isXacked : Event → Bool
  | .xacked _ => true
  | _ => false

theorem requests_within_budget_mock :
    let M := machine mockConfig fun _ => mockWrite
    ∃ q, M.Reach leaseOutlastsWrite (M.start {}) q ∧ Event.xacked 1 ∉ q.state.log ∧
      (requests 1 q.state.log).length = 2 ∧ 2 ≤ (q.state.attempts 1).getD 0 ∧
      (q.state.attempts 1).getD 0 ≤ 5 := by
  intro M
  have hrun : ((M.runIn leasesIdle (M.start {}) crashAfterSend).map fun q =>
      (q.state.log.any isXacked, (requests 1 q.state.log).length)) = some (false, 2) := by
    decide +kernel
  obtain ⟨q, hq, hobs⟩ := Option.map_eq_some_iff.mp hrun
  obtain ⟨hack, htwo⟩ := Prod.mk.inj hobs
  have hreach := Machine.reach_of_runIn allows_of_leasesIdle hq
  have hm : Event.xacked 1 ∉ q.state.log := fun hin =>
    absurd (List.any_eq_true.mpr ⟨_, hin, rfl⟩) (by rw [hack]; simp)
  obtain ⟨hle, hcap⟩ := requests_within_persisted_budget hreach hm
  exact ⟨q, hreach, hm, htwo, htwo ▸ hle, hcap⟩

end Queue
end AdaptiveGateway
