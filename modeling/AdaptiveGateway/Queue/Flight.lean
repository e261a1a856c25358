/-
How long a lease has to last.

A worker holds the lease of its entry while it talks to Redis and while its request
is in flight, and another worker may take over as soon as the lease has run out.
`validate_boundaries` compares the lease with the upstream timeout alone, but the
lease is also used up by five Redis commands: the rest of the one that has set it,
and the four that come before the request.

Time is kept by `Timely`.  A Redis command takes at most `redis`, an upstream request
at most the upstream timeout, and nothing is assumed of the database and of the read
that waits for new entries.
-/
import AdaptiveGateway.Queue.Turn

namespace AdaptiveGateway
namespace Queue

open Codec Concurrent

/-- How long a command may take. -/
def limit (redis upstream : Time) : Cmd → Option Time
  | .time | .tokenHex | .cursor | .setCursor _ | .send _ _ => some 0
  | .recv _ => some upstream
  | .commit _ _ | .xreadgroup _ => none
  | _ => some redis

/-- The thread waits for the answer to a request that it has made for the entry. -/
def InFlight (p : State) (i : Thread) (m : EntryId) : Prop :=
  ∃ k, p.prog i = some (.call (.recv m) k)

/-- The runs of workers and clients that keep to the limits. -/
def TimedRun (cfg : Config) (writes : Nat → Write) (redis : Time) (q : State)
    (g : Since Thread) : Prop :=
  Watched (machine cfg writes)
    (Timely World.now (limit redis cfg.settings.upstreamTimeout)) ((machine cfg writes).start {})
    (fun _ => none) q g

/-- A request is only made while its worker's lease is in place and does not run out
before the upstream timeout. -/
def Covered (upstream : Time) (p : State) (l : Label Thread Choice Time) : Prop :=
  ∀ i ch m req k, l = .act i ch → p.prog i = some (.call (.send m req) k) →
    ∃ lease, p.state.lock m = some lease ∧ lease.token.owner = i ∧
      p.state.now + upstream < lease.expires

/-- The runs among these in which every request is covered by its lease. -/
def CoveredRun (cfg : Config) (writes : Nat → Write) (redis : Time) (q : State)
    (g : Since Thread) : Prop :=
  Watched (machine cfg writes)
    (fun p g l q g' => Timely World.now (limit redis cfg.settings.upstreamTimeout) p g l q g' ∧
      Covered cfg.settings.upstreamTimeout p l)
    ((machine cfg writes).start {}) (fun _ => none) q g

/-! ## A lease that is long enough -/

/-- The lease lasts for another `b` from the moment the thread has issued its
command. -/
def Secured (s : World) (g : Since Thread) (i : Thread) (m : EntryId) (t : Token) (b : Nat) :
    Prop :=
  ∃ since expires : Nat, g i = some since ∧ since + b < expires ∧
    (expires ≤ s.now ∨ s.lock m = some ⟨t, expires⟩)

section Secured

variable {cfg : Config} {s s' : World} {g g' : Since Thread} {i j : Thread} {m : EntryId}
  {t : Token} {b : Nat} {φ : Thread → Option Duty} {c : Cmd} {ch : Choice}

theorem Secured.advance (h : Secured s g i m t b) (d : Time) :
    Secured (Queue.advance d s) g i m t b := by
  obtain ⟨since, expires, hg, hb, hlock⟩ := h
  refine ⟨since, expires, hg, hb, ?_⟩
  by_cases hexp : expires ≤ s.now + d
  · exact Or.inl hexp
  · refine Or.inr ?_
    have hold : s.lock m = some ⟨t, expires⟩ := by
      rcases hlock with hlock | hlock
      · exact absurd (Nat.le_trans hlock (Nat.le_add_right _ _)) hexp
      · exact hlock
    show (s.lock m).filter _ = _
    rw [hold, Option.filter_some, if_pos (decide_eq_true (Nat.lt_of_not_le hexp))]

/-- Nobody else removes a lease, or replaces it before it has run out. -/
theorem Secured.other {d : Duty} {r : Except Exc (Ans c)} (h : Secured s g i m t b)
    (ho : Owned s φ) (ht : t.owner = i) (hij : i ≠ j) (hd : φ j = some d) (hallow : d.allows cfg c)
    (he : exec j c ch s = some (r, s')) (hg' : g' i = g i) : Secured s' g' i m t b := by
  obtain ⟨since, expires, hg, hb, hlock⟩ := h
  refine ⟨since, expires, hg'.trans hg, hb, ?_⟩
  rw [exec_now he]
  rcases hlock with hexp | hlock
  · exact Or.inl hexp
  · refine Or.inr ?_
    obtain hsame | ⟨m', t', -, hnone, hset⟩ | ⟨m', t', turn, l, rfl, hl, hlt, hdel, -⟩ :=
      exec_lock hallow he
    · rw [hsame]
      exact hlock
    · have hm : m ≠ m' := by
        rintro rfl
        rw [hlock] at hnone
        cases hnone
      rw [hset, Function.update_of_ne hm]
      exact hlock
    · have hm : m ≠ m' := by
        rintro rfl
        rw [hlock] at hl
        cases hl
        -- The lease that is given back is `j`'s own.
        exact hij (ht.symm.trans ((congrArg Token.owner hlt).trans (ho.leased j m t' turn hd).1))
      rw [hdel, Function.update_of_ne hm]
      exact hlock

/-- A command of the holder uses up its own limit. -/
theorem Secured.own {turn : Turn} {r : Except Exc (Ans c)} {b' d since : Nat}
    (h : Secured s g i m t b) (hallow : Duty.allows cfg (.leased m t turn) c)
    (hdel : ∀ m t, c ≠ .getDel m t) (he : exec i c ch s = some (r, s')) (hb : b' + d ≤ b)
    (hg' : g' i = some since) (hsince : ∀ t, g i = some t → since ≤ t + d) :
    Secured s' g' i m t b' := by
  obtain ⟨since₀, expires, hg, hlt, hlock⟩ := h
  have hle : since ≤ since₀ + d := hsince since₀ hg
  refine ⟨since, expires, hg', ?_, ?_⟩
  · omega
  · rw [exec_now he]
    refine hlock.imp id fun hlock => ?_
    obtain hsame | ⟨m', t', hd, -⟩ | ⟨m', t', turn', l, -, -, -, -, hfree⟩ := exec_lock hallow he
    · rw [hsame]
      exact hlock
    · cases hd
    · rw [duty_next r hdel] at hfree
      cases hfree

end Secured

/-! ## Keeping pace -/

section Paced

/-- At the turns that `left` names, the lease lasts for what is left of the replay.
Nobody is late. -/
structure Paced (cfg : Config) (redis : Time) (left : Turn → Option Nat) (p : State)
    (φ : Thread → Option Duty) (g : Since Thread) : Prop where
  owned : Owned p.state φ
  secured : ∀ i m t turn b, φ i = some (.leased m t turn) → left turn = some b →
    Secured p.state g i m t b
  onTime : OnTime World.now (limit redis cfg.settings.upstreamTimeout) p g

variable {cfg : Config} {writes : Nat → Write} {redis : Time} {left : Turn → Option Nat}
  {p q : State} {φ φ' : Thread → Option (replayProtocol cfg).Phase} {g g' : Since Thread}
  {l : Label Thread Choice Time}

theorem paced_start : Paced cfg redis left ((machine cfg writes).start {}) (fun _ => some .free)
    (fun _ => none) where
  owned := owned_start
  secured i m t turn b h := by cases h
  onTime i c k t d _ h := by cases h

/-- Only the thread that acts has to look after its lease. -/
theorem Paced.move (h : Paced cfg redis left p φ g)
    (hm : Moves (replayProtocol cfg) (fun d => d = .free) (machine cfg writes) p φ l q φ')
    (hR : Timely World.now (limit redis cfg.settings.upstreamTimeout) p g l q g')
    (hown : ∀ i c ch r s f m t turn b since, φ i = some f → f.allows cfg c →
      (∃ k, p.prog i = some (.call c k)) → l = .act i ch → exec i c ch p.state = some (r, s) →
      f.next c r = .leased m t turn → left turn = some b → g' i = some since →
      (∀ t, g i = some t → t ≤ p.state.now) →
      (∀ d, limit redis cfg.settings.upstreamTimeout c = some d →
        since ≤ (g i).getD p.state.now + d) → Secured s g' i m t b) :
    Paced cfg redis left q φ' g' := by
  have howned := h.owned.move hm
  obtain ⟨hhistory, honTime⟩ := hR
  refine ⟨howned, fun j m t turn b hj hb => ?_, honTime⟩
  cases hm with
  | @act i ch c k r s f hp he hf hallow =>
    obtain ⟨hpast, since, rfl, -, hlimit⟩ := hhistory
    obtain ⟨rfl, hnext⟩ | ⟨hji, hj⟩ := update_some hj
    · exact hown j c ch r s f m t turn b since hf hallow ⟨k, hp⟩ rfl he hnext.symm hb
        (Function.update_self _ _ _) hpast fun d hd => hlimit c k d hp hd
    · exact (h.secured j m t turn b hj hb).other h.owned (h.owned.leased j m t turn hj).1 hji hf
        hallow he (Function.update_of_ne hji _ _)
  | @loop i n f hf hfree =>
    subst hhistory
    have hji : j ≠ i := by
      rintro rfl
      rw [hf, hfree] at hj
      cases hj
    obtain ⟨since, expires, hg, hrest⟩ := h.secured j m t turn b hj hb
    exact ⟨since, expires, (Function.update_of_ne hji _ _).trans hg, hrest⟩
  | @crash i =>
    subst hhistory
    have hji : j ≠ i := by
      rintro rfl
      rw [Function.update_self] at hj
      cases hj
    rw [Function.update_of_ne hji] at hj
    exact h.secured j m t turn b hj hb
  | @env d s he =>
    subst hhistory
    cases he
    exact (h.secured j m t turn b hj hb).advance d

end Paced

/-! ## Requests that are covered -/

section Runs

variable {cfg : Config} {writes : Nat → Write} {redis : Time} {p q : State} {g g' : Since Thread}
  {l : Label Thread Choice Time}

/-- A request comes into flight by being sent. -/
theorem turn_flying {turn : Turn} {c : Cmd} {r : Except Exc (Ans c)}
    (h : turn.next c r = .flying) : ∃ n now m req, turn = .set n now ∧ c = .send m req := by
  unfold Turn.next at h
  split at h
  case h_2 => split at h <;> cases h
  case h_9 n now m req _ => exact ⟨n, now, m, req, rfl, rfl⟩
  all_goals cases h

/-- A request in flight has the upstream timeout left. -/
def inFlightLeft (upstream : Nat) : Turn → Option Nat
  | .flying => some upstream
  | _ => none

theorem CoveredRun.paced (h : CoveredRun cfg writes redis q g) :
    ∃ φ : Thread → Option (replayProtocol cfg).Phase,
      InPhase (replayProtocol cfg) (fun d => d = Duty.free) q φ ∧
        Paced cfg redis (inFlightLeft cfg.settings.upstreamTimeout) q φ g := by
  refine Watched.invariant h again_follows_turns start_turns paced_start
    fun p φ g l q φ' g' _ hm hR hJ => hJ.move hm hR.1 ?_
  intro i c ch r s f m t turn b since hf hallow hpending hl he hnext hb hg' hpast hlimit
  cases turn with
  | flying =>
    cases hb
    obtain ⟨-, hturn, -⟩ | ⟨turn', rfl, -, hturn⟩ := exec_leased hallow he hnext
    · cases hturn
    · obtain ⟨n, now, m', req, rfl, rfl⟩ := turn_flying hturn.symm
      have hm' : m' = m := hallow
      subst hm'
      obtain ⟨k, hk⟩ := hpending
      obtain ⟨lease, hlease, howner, hexpires⟩ := hR.2 i ch m' req k hl hk
      have htoken : lease.token = t := (hJ.owned.leased i m' t _ hf).2 lease hlease howner
      have hlock : s.lock = p.state.lock := by
        obtain hsame | ⟨_, _, hd, -⟩ | ⟨_, _, _, _, -, -, -, -, hfree⟩ := exec_lock hallow he
        · exact hsame
        · cases hd
        · rw [hnext] at hfree
          cases hfree
      have hsince : since ≤ p.state.now := by
        refine Nat.le_trans (hlimit 0 rfl) ?_
        cases hg : g i with
        | none => exact Nat.le_refl _
        | some t => exact hpast t hg
      refine ⟨since, lease.expires, hg', ?_, Or.inr ?_⟩
      · exact Nat.lt_of_le_of_lt (Nat.add_le_add_right hsince _) hexpires
      · rw [hlock, hlease, ← htoken]
  | _ => cases hb

/-- Two requests for one entry are not in flight together if each is covered by its
lease. -/
theorem CoveredRun.single_flight (h : CoveredRun cfg writes redis q g) {i j : Thread} {m : EntryId}
    (hi : InFlight q i m) (hj : InFlight q j m) : i = j := by
  obtain ⟨φ, hin, hpaced⟩ := h.paced
  have hlock : ∀ i, InFlight q i m → ∃ lease, q.state.lock m = some lease ∧ lease.token.owner = i := by
    rintro i ⟨k, hk⟩
    obtain ⟨f, hf, hallow⟩ := hin.allows hk
    obtain ⟨t, rfl⟩ := flying_of_allows hallow
    obtain ⟨since, expires, hg, hlt, hlease⟩ := hpaced.secured i m t .flying _ hf rfl
    have hnow : q.state.now ≤ since + cfg.settings.upstreamTimeout :=
      hpaced.onTime i _ k since _ hk hg rfl
    rcases hlease with hexp | hlease
    · exact absurd (Nat.lt_of_le_of_lt (Nat.le_trans hexp hnow) hlt) (Nat.lt_irrefl _)
    · exact ⟨_, hlease, (hpaced.owned.leased i m t .flying hf).1⟩
  obtain ⟨lease, hlease, howner⟩ := hlock i hi
  obtain ⟨lease', hlease', howner'⟩ := hlock j hj
  rw [hlease] at hlease'
  cases hlease'
  exact howner.symm.trans howner'

/-! ## Leases that cover every replay -/

/-- What a replay may still take, counted from the moment the pending command was
issued, up to the end of its request. -/
def replayLeft (redis upstream : Nat) : Turn → Option Nat
  | .held => some (4 * redis + upstream)
  | .dated _ | .ready => some (3 * redis + upstream)
  | .counted _ | .fit _ => some (2 * redis + upstream)
  | .spent _ | .timed _ _ => some (redis + upstream)
  | .set _ _ => some upstream
  | _ => none

theorem replayLeft_next {turn : Turn} {c : Cmd} {r : Except Exc (Ans c)} {redis upstream b' : Nat}
    (hb : replayLeft redis upstream (turn.next c r) = some b') :
    ∃ b d, replayLeft redis upstream turn = some b ∧ limit redis upstream c = some d ∧
      b' + d ≤ b := by
  unfold Turn.next at hb
  split at hb
  case h_2 =>
    split at hb <;> cases hb
    exact ⟨_, _, rfl, rfl, Nat.le_refl _⟩
  all_goals
    cases hb
    try exact ⟨_, _, rfl, rfl, by omega⟩

theorem TimedRun.paced (h : TimedRun cfg writes redis q g)
    (hlong : cfg.settings.upstreamTimeout + 5 * redis <
      seconds cfg.settings.queueClaimIdleSeconds) :
    ∃ φ : Thread → Option (replayProtocol cfg).Phase,
      InPhase (replayProtocol cfg) (fun d => d = Duty.free) q φ ∧
        Paced cfg redis (replayLeft redis cfg.settings.upstreamTimeout) q φ g := by
  refine Watched.invariant h again_follows_turns start_turns paced_start
    fun p φ g l q φ' g' _ hm hR hJ => hJ.move hm hR ?_
  intro i c ch r s f m t turn b since hf hallow hpending hl he hnext hb hg' hpast hlimit
  obtain ⟨-, rfl, rfl, hset⟩ | ⟨turn', rfl, hdel, rfl⟩ := exec_leased hallow he hnext
  · -- The lease is set at some moment of its command, whose answer may take the rest of it.
    have hsince : since ≤ p.state.now + redis := by
      refine Nat.le_trans (hlimit redis rfl) (Nat.add_le_add_right ?_ _)
      cases hg : g i with
      | none => exact Nat.le_refl _
      | some t => exact hpast t hg
    cases hb
    refine ⟨since, p.state.now + seconds cfg.settings.queueClaimIdleSeconds, hg', ?_, Or.inr ?_⟩
    · have hnow : since + (4 * redis + cfg.settings.upstreamTimeout) ≤
          p.state.now + (cfg.settings.upstreamTimeout + 5 * redis) := by
        have hsince' : (since : Nat) ≤ (p.state.now : Nat) + (redis : Nat) := hsince
        omega
      exact Nat.lt_of_le_of_lt hnow (Nat.add_lt_add_left hlong _)
    · rw [hset, Function.update_self]
  · obtain ⟨b₀, d, hb₀, hd, hle⟩ := replayLeft_next hb
    refine (hJ.secured i m t turn' b₀ hf hb₀).own hallow hdel he hle hg' fun t ht => ?_
    have hbound := hlimit d hd
    rw [ht] at hbound
    exact hbound

/-- A lease that is longer than five Redis commands and the request covers every
replay. -/
theorem TimedRun.covered (h : TimedRun cfg writes redis q g)
    (hlong : cfg.settings.upstreamTimeout + 5 * redis <
      seconds cfg.settings.queueClaimIdleSeconds) : CoveredRun cfg writes redis q g := by
  induction h with
  | here => exact .here
  | @step p q g g' l hrun hs hR ih =>
    refine .step ih hs ⟨hR, ?_⟩
    rintro i ch m req k rfl hk
    obtain ⟨φ, hin, hpaced⟩ := TimedRun.paced hrun hlong
    obtain ⟨f, hf, hallow⟩ := hin.allows hk
    obtain ⟨t, n, now, rfl⟩ := set_of_allows hallow
    obtain ⟨since, expires, hg, hlt, hlease⟩ := hpaced.secured i m t _ _ hf rfl
    have hnow : p.state.now ≤ since + 0 := hpaced.onTime i _ k since _ hk hg rfl
    have hleft : p.state.now + cfg.settings.upstreamTimeout < expires :=
      Nat.lt_of_le_of_lt (Nat.add_le_add_right hnow _) hlt
    rcases hlease with hexp | hlease
    · exact absurd (Nat.lt_of_le_of_lt (Nat.le_trans hexp (Nat.le_add_right _ _)) hleft)
        (Nat.lt_irrefl _)
    · exact ⟨_, hlease, (hpaced.owned.leased i m t _ hf).1, hleft⟩

end Runs

/-- The lease outlives the replay.  In every timed run in which each request is made
while its lease has more than the upstream timeout left, no two requests for one
entry are in flight together; and every timed run is of this kind if the lease is
longer than the upstream timeout and five Redis commands. -/
theorem lease_outlives_replay (cfg : Config) (writes : Nat → Write) (redis : Time) (q : State)
    (g : Since Thread) :
    (CoveredRun cfg writes redis q g →
      ∀ i j m, InFlight q i m → InFlight q j m → i = j) ∧
    (cfg.settings.upstreamTimeout + 5 * redis < seconds cfg.settings.queueClaimIdleSeconds →
      TimedRun cfg writes redis q g → ∀ i j m, InFlight q i m → InFlight q j m → i = j) :=
  ⟨fun h _ _ _ hi hj => h.single_flight hi hj,
    fun hlong h _ _ _ hi hj => (h.covered hlong).single_flight hi hj⟩

/-! ## A lease that is too short -/

/-- An upstream timeout of ten seconds, and a lease of eleven. -/
def shortLeaseConfig : Config where
  settings := { mockSettings with
    queueClaimIdleSeconds := 11
    queueBackoffSchedule := [1]
    backoff_ne := by decide
    backoff_pos := by decide
    claim_gt := by decide }
  rules := mockRules
  netlocOk := fun _ => true
  recursionLimit := noLimit

/-- The next `n` commands of a thread succeed, and are answered at once. -/
def promptly (i : Thread) (n : Nat) (now : Nat) : List (Label Thread Choice Time × Nat) :=
  List.replicate n (.act i .ok, seconds now)

/-- Redis takes its time. -/
def waitSeconds (n : Nat) : List (Label Thread Choice Time × Nat) := [(.env (seconds n), 0)]

/-- A worker whose Redis commands take a second each, and another that claims the
entry as soon as the lease has run out. -/
def overtaken : List (Label Thread Choice Time × Nat) :=
  promptly (.client 0) 2 0 ++
  promptly (.worker 0) 4 0 ++ waitSeconds 1 ++ promptly (.worker 0) 1 1 ++ waitSeconds 1 ++
  promptly (.worker 0) 2 2 ++ waitSeconds 1 ++ promptly (.worker 0) 2 3 ++ waitSeconds 1 ++
  promptly (.worker 0) 2 4 ++ waitSeconds 7 ++
  promptly (.worker 1) 15 11

def awaits (p : State) (i : Thread) (m : EntryId) : Bool :=
  match p.prog i with
  | some (.call (.recv m') _) => m' == m
  | _ => false

theorem inFlight_of_awaits {p : State} {i : Thread} {m : EntryId} (h : awaits p i m = true) :
    InFlight p i m := by
  unfold awaits at h
  split at h
  next m' k hk =>
    obtain rfl : m' = m := by simpa using h
    exact ⟨k, hk⟩
  next => cases h

/-- The second worker sends its request while that of the first is still in flight,
although no Redis command takes more than a second and no request more than ten. -/
theorem short_lease_two_in_flight :
    ∃ q g, TimedRun shortLeaseConfig (fun _ => mockWrite) (seconds 1) q g ∧
      InFlight q (.worker 0) 1 ∧ InFlight q (.worker 1) 1 := by
  have hrun : (timedRun World.now (limit (seconds 1) (seconds 10))
      (machine shortLeaseConfig fun _ => mockWrite) [.client 0, .worker 0, .worker 1]
      ((machine shortLeaseConfig fun _ => mockWrite).start {}) (fun _ => none) overtaken).map
        (fun o => (awaits o.1 (.worker 0) 1, awaits o.1 (.worker 1) 1)) = some (true, true) := by
    decide +kernel
  obtain ⟨⟨q, g⟩, hq, hboth⟩ := Option.map_eq_some_iff.mp hrun
  obtain ⟨h0, h1⟩ := Prod.mk.inj hboth
  refine ⟨q, g, watched_of_timedRun .here (fun _ _ => rfl) hq, ?_, ?_⟩
  · exact inFlight_of_awaits h0
  · exact inFlight_of_awaits h1

/-- With the lease of the default settings, the second worker does not get the entry. -/
theorem lease_outlives_replay_mock :
    ∃ q g, TimedRun mockConfig (fun _ => mockWrite) (seconds 1) q g ∧ InFlight q (.worker 0) 1 ∧
      ¬InFlight q (.worker 1) 1 := by
  have hrun : (timedRun World.now (limit (seconds 1) (seconds 10))
      (machine mockConfig fun _ => mockWrite) [.client 0, .worker 0, .worker 1]
      ((machine mockConfig fun _ => mockWrite).start {}) (fun _ => none)
      (overtaken.take 23)).map (fun o => awaits o.1 (.worker 0) 1) = some true := by
    decide +kernel
  obtain ⟨⟨q, g⟩, hq, h0⟩ := Option.map_eq_some_iff.mp hrun
  have htimed : TimedRun mockConfig (fun _ => mockWrite) (seconds 1) q g :=
    watched_of_timedRun .here (fun _ _ => rfl) hq
  have h0' := inFlight_of_awaits h0
  refine ⟨q, g, htimed, h0', fun h1 => ?_⟩
  have hsame := (lease_outlives_replay mockConfig _ (seconds 1) q g).2 (by decide) htimed
    (.worker 0) (.worker 1) 1 h0' h1
  cases hsame

end Queue
end AdaptiveGateway
