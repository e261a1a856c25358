/-
Rate limiting with Redis counters.

`Redis` is the part of the server that the limiter uses: counters that may expire, and
the clock.  The script counts a call and gives the counter its expiry when it is the
first, in one step that nothing else can come between, so the calls of all workers
are served one after another.  `serve` is such a sequence, with the time that passes
before each call.
-/
import AdaptiveGateway.Config
import AdaptiveGateway.Control.FixedWindow
import Mathlib.Logic.Function.Basic

namespace AdaptiveGateway
namespace RateLimit

open Codec Control FixedWindow

/-! ## Counters -/

structure Counter where
  value : Nat
  /-- The end of its time to live, if it has one. -/
  expires : Option Time
deriving DecidableEq, Repr

structure Redis where
  now : Time := 0
  counters : Text → Option Counter := fun _ => none

namespace Redis

/-- `INCR`, which creates a counter without an expiry and leaves that of an old one. -/
def incr (key : Text) (r : Redis) : Nat × Redis :=
  let old := (r.counters key).getD ⟨0, none⟩
  (old.value + 1,
    { r with counters := Function.update r.counters key (some ⟨old.value + 1, old.expires⟩) })

/-- `EXPIRE`, which deletes the key if the time to live is not positive. -/
def expire (key : Text) (window : Nat) (r : Redis) : Redis :=
  let counter := if window = 0 then none
    else (r.counters key).map fun c => ⟨c.value, some (r.now + seconds window)⟩
  { r with counters := Function.update r.counters key counter }

/-- The script of `check_rate_limit`. -/
def script (key : Text) (window : Nat) (r : Redis) : Nat × Redis :=
  let n := r.incr key
  if n.1 = 1 then (n.1, n.2.expire key window) else n

/-- Time passes, and the counters that run out are gone. -/
def advance (d : Time) (r : Redis) : Redis where
  now := r.now + d
  counters k := (r.counters k).filter fun c => c.expires.all fun e => decide (r.now + d < e)

end Redis

/-! ## `check_rate_limit` and its callers -/

structure HttpException where
  status : Nat
  detail : Text
  headers : List (Text × Text) := []
deriving DecidableEq

/-- What becomes of a script call: `refused` and `lost` raise a `RedisError`, the
second after Redis has run the script. -/
inductive Fate where
  | answered | refused | lost
deriving DecidableEq, Repr

/-- `check_rate_limit`: whether the call is allowed, and how many are left. -/
def checkRateLimit (isProduction : Bool) (key : Text) (limit window : Nat) (fate : Fate)
    (r : Redis) : Except HttpException (Bool × Nat) × Redis :=
  let unavailable : Except HttpException (Bool × Nat) :=
    if isProduction then .error ⟨503, "rate limiter unavailable", []⟩ else .ok (true, limit)
  let count := r.script key window
  match fate with
  | .answered => (.ok (decide (count.1 ≤ limit), limit - count.1), count.2)
  | .refused => (unavailable, r)
  | .lost => (unavailable, count.2)

/-- `enforce_rate_limit`. -/
def enforceRateLimit (isProduction : Bool) (clientIp scope : Text) (limit window : Nat)
    (fate : Fate) (r : Redis) : Except HttpException Unit × Redis :=
  let checked := checkRateLimit isProduction
    (("ratelimit:" : Text) ++ scope ++ (":" : Text) ++ clientIp) limit window fate r
  (match checked.1 with
    | .error e => .error e
    | .ok (true, _) => .ok ()
    | .ok (false, _) =>
      .error ⟨429, "rate limit exceeded", [("Retry-After", (toString window).toList)]⟩,
    checked.2)

/-! ## Sequences of calls -/

/-- A call of `check_rate_limit` and the time since the one before. -/
structure Call where
  delay : Time
  key : Text
  limit : Nat
  window : Nat

/-- How a call came out: when Redis ran its script, and the result. -/
structure Answer where
  time : Time
  key : Text
  allowed : Bool
  remaining : Nat
deriving DecidableEq

def Call.run (c : Call) (r : Redis) : Answer × Redis :=
  let r := r.advance c.delay
  let checked := checkRateLimit false c.key c.limit c.window .answered r
  (match checked.1 with
    | .ok (allowed, remaining) => ⟨r.now, c.key, allowed, remaining⟩
    | .error _ => ⟨r.now, c.key, false, 0⟩, checked.2)

/-- The calls in the order in which Redis serves them, whoever makes them. -/
def serve (calls : List Call) : List Answer × Redis :=
  calls.foldl (fun o c => (o.1 ++ [(c.run o.2).1], (c.run o.2).2)) ([], {})

/-- The calls on a key, with the time of each and whether it was allowed. -/
def onKey (key : Text) (answers : List Answer) : List (Nat × Bool) :=
  (answers.filter fun x => decide (x.key = key)).map fun x => (x.time, x.allowed)

/-! ## One call -/

section Run

variable {key : Text} {c : Call} {r : Redis}

theorem serve_append (calls : List Call) (c : Call) :
    serve (calls ++ [c]) =
      ((serve calls).1 ++ [(c.run (serve calls).2).1], (c.run (serve calls).2).2) := by
  rw [serve, List.foldl_append]
  rfl

theorem run_now : (c.run r).2.now = r.now + c.delay := by
  simp only [Call.run, checkRateLimit, Redis.script]
  split <;> rfl

theorem run_counters_of_ne (h : c.key ≠ key) :
    (c.run r).2.counters key = (r.advance c.delay).counters key := by
  simp only [Call.run, checkRateLimit, Redis.script]
  split
  next => simp [Redis.expire, Redis.incr, Function.update_of_ne (Ne.symm h)]
  next => simp [Redis.incr, Function.update_of_ne (Ne.symm h)]

/-- A call without a live counter is the first of a window, and sets its end. -/
theorem run_of_none (hwindow : 0 < c.window) (h : (r.advance c.delay).counters c.key = none) :
    (c.run r).1 = ⟨r.now + c.delay, c.key, decide (1 ≤ c.limit), c.limit - 1⟩ ∧
      (c.run r).2.counters c.key = some ⟨1, some (r.now + c.delay + seconds c.window)⟩ := by
  have hne : c.window ≠ 0 := by omega
  simp only [Call.run, checkRateLimit, Redis.script, Redis.incr, Redis.expire, h, Option.getD_none,
    Nat.zero_add, if_pos, if_neg hne, Function.update_self, Option.map_some]
  exact ⟨rfl, rfl⟩

/-- A call that finds its counter alive adds to it and leaves its end alone. -/
theorem run_of_some {n : Nat} {e : Option Time} (hn : 0 < n)
    (h : (r.advance c.delay).counters c.key = some ⟨n, e⟩) :
    (c.run r).1 = ⟨r.now + c.delay, c.key, decide (n + 1 ≤ c.limit), c.limit - (n + 1)⟩ ∧
      (c.run r).2.counters c.key = some ⟨n + 1, e⟩ := by
  have hne : ¬n + 1 = 1 := by omega
  simp only [Call.run, checkRateLimit, Redis.script, Redis.incr, h, Option.getD_some, if_neg hne,
    Function.update_self]
  exact ⟨rfl, trivial⟩

end Run

/-! ## Whole sequences -/

/-- The counter of a key belongs to the last window, as long as that lasts. -/
def Tracks (key : Text) (W : Nat) (ws : List (List Nat)) (r : Redis) : Prop :=
  (∀ w ∈ ws, ∀ t ∈ w, t ≤ r.now) ∧
    ((∃ pre s rest, ws = pre ++ [s :: rest] ∧ r.now < s + W ∧
        r.counters key = some ⟨(s :: rest).length, some (s + W)⟩) ∨
      (r.counters key = none ∧ ∀ w ∈ ws, ∀ s ∈ w.head?, s + W ≤ r.now))

theorem Tracks.advance {key : Text} {W d : Nat} {ws : List (List Nat)} {r : Redis}
    (hws : Windows W ws) (h : Tracks key W ws r) : Tracks key W ws (r.advance d) := by
  obtain ⟨hpast, hcounter⟩ := h
  refine ⟨fun w hw t ht => Nat.le_trans (hpast w hw t ht) (Nat.le_add_right _ _), ?_⟩
  rcases hcounter with ⟨pre, s, rest, rfl, hnow, hc⟩ | ⟨hc, hend⟩
  · by_cases hd : s + W ≤ r.now + d
    · refine Or.inr ⟨by simp [Redis.advance, hc, hd], fun w hw r' hr' => ?_⟩
      show r' + W ≤ r.now + d
      rcases List.mem_append.mp hw with hw | hw
      · have hended : r' + W ≤ s := hws.ended rfl w hw r' hr'
        exact Nat.le_trans hended (Nat.le_trans (Nat.le_add_right s W) hd)
      · obtain rfl := List.mem_singleton.mp hw
        obtain rfl : s = r' := by simpa using hr'
        exact hd
    · have hopen : r.now + d < s + W := Nat.lt_of_not_le hd
      exact Or.inl ⟨pre, s, rest, rfl, hopen, by simp [Redis.advance, hc, hopen]⟩
  · refine Or.inr ⟨by simp [Redis.advance, hc], fun w hw s hs => ?_⟩
    exact Nat.le_trans (hend w hw s hs) (Nat.le_add_right _ _)

/-- The calls on a key fall into windows of which each allows its first `limit` calls. -/
theorem serve_windows {key : Text} {limit window : Nat} (hwindow : 0 < window) {calls : List Call}
    (hcalls : ∀ c ∈ calls, c.key = key → c.limit = limit ∧ c.window = window) :
    ∃ ws, Windows (seconds window) ws ∧ Tracks key (seconds window) ws (serve calls).2 ∧
      onKey key (serve calls).1 = ws.flatMap (marked limit) := by
  have hW : 0 < seconds window := Nat.mul_pos hwindow (by decide)
  induction calls using List.reverseRecOn with
  | nil => exact ⟨[], windows_nil, ⟨by simp, Or.inr ⟨rfl, by simp⟩⟩, rfl⟩
  | append_singleton calls c ih =>
    obtain ⟨ws, hws, htracks, hkey⟩ := ih fun c' hc' => hcalls c' (List.mem_append_left _ hc')
    rw [serve_append]
    generalize (serve calls).2 = r at htracks
    have hadv := htracks.advance (d := c.delay) hws
    by_cases hc : c.key = key
    · obtain ⟨hlimit, hwin⟩ := hcalls c (by simp) hc
      have hcall : ∀ x : Answer, x.key = key →
          onKey key ((serve calls).1 ++ [x]) = ws.flatMap (marked limit) ++ [(x.time, x.allowed)] := by
        intro x hx
        simp only [onKey, List.filter_append, List.map_append] at hkey ⊢
        rw [hkey]
        simp [hx]
      obtain ⟨hpast, ⟨pre, s, rest, rfl, hnow, hcounter⟩ | ⟨hcounter, hend⟩⟩ := hadv
      · -- The window is still open: the call joins it.
        obtain ⟨hanswer, hafter⟩ := run_of_some (by simp) (hc ▸ hcounter)
        have hst : s ≤ r.now + c.delay := hpast (s :: rest) (by simp) s (by simp)
        refine ⟨pre ++ [s :: rest ++ [r.now + c.delay]], hws.extend rfl hst hnow, ⟨?_, ?_⟩, ?_⟩
        · rw [run_now]
          intro w hw t ht
          rcases List.mem_append.mp hw with hw | hw
          · exact hpast w (List.mem_append_left _ hw) t ht
          · rw [List.mem_singleton.mp hw] at ht
            rcases List.mem_append.mp ht with ht | ht
            · exact hpast (s :: rest) (by simp) t ht
            · exact Nat.le_of_eq (List.mem_singleton.mp ht)
        · refine Or.inl ⟨pre, s, rest ++ [r.now + c.delay], rfl, ?_, ?_⟩
          · rw [run_now]
            exact hnow
          · rw [← hc, hafter]
            simp
        · rw [hcall _ (by rw [hanswer]; exact hc), hanswer]
          simp only [List.flatMap_append, List.flatMap_cons, List.flatMap_nil, List.append_nil,
            marked_append, List.append_assoc, hlimit]
          rfl
      · -- No window is open: the call opens one.
        have hpos : 0 < c.window := by omega
        obtain ⟨hanswer, hafter⟩ := run_of_none hpos (hc ▸ hcounter)
        refine ⟨ws ++ [[r.now + c.delay]], hws.open_ hW hend, ⟨?_, ?_⟩, ?_⟩
        · rw [run_now]
          intro w hw t ht
          rcases List.mem_append.mp hw with hw | hw
          · exact hpast w hw t ht
          · rw [List.mem_singleton.mp hw] at ht
            exact Nat.le_of_eq (List.mem_singleton.mp ht)
        · refine Or.inl ⟨ws, r.now + c.delay, [], rfl, ?_, ?_⟩
          · rw [run_now]
            exact Nat.lt_add_of_pos_right hW
          · rw [← hc, hafter, hwin]
            rfl
        · rw [hcall _ (by rw [hanswer]; exact hc), hanswer]
          simp [marked, hlimit, Nat.succ_le_iff]
    · refine ⟨ws, hws, ?_, ?_⟩
      · refine ⟨by rw [run_now]; exact hadv.1, ?_⟩
        rw [run_now, run_counters_of_ne hc]
        exact hadv.2
      · have hother : (c.run r).1.key ≠ key := by
          simp only [Call.run, checkRateLimit]
          exact hc
        simp only [onKey, List.filter_append, List.map_append] at hkey ⊢
        rw [hkey]
        simp [hother]

/-- The counter of a key always has an end, and no later than a window from now. -/
theorem Tracks.expires {key : Text} {W : Nat} {ws : List (List Nat)} {r : Redis}
    (h : Tracks key W ws r) {c : Counter} (hc : r.counters key = some c) :
    ∃ e, c.expires = some e ∧ r.now < e ∧ e ≤ r.now + W := by
  obtain ⟨hpast, ⟨pre, s, rest, rfl, hnow, hcounter⟩ | ⟨hcounter, -⟩⟩ := h
  · rw [hcounter] at hc
    cases hc
    have hs : s ≤ r.now := hpast (s :: rest) (by simp) s (by simp)
    exact ⟨s + W, rfl, hnow, Nat.add_le_add_right hs W⟩
  · rw [hcounter] at hc
    cases hc

/-- The windows of a key allow exactly their first calls, its counter never stays, and
an interval as long as a window has at most twice the limit of allowed calls in it. -/
theorem fixed_window_bounds {key : Text} {limit window : Nat} (hwindow : 0 < window)
    {calls : List Call}
    (hcalls : ∀ c ∈ calls, c.key = key → c.limit = limit ∧ c.window = window) :
    (∃ ws, Windows (seconds window) ws ∧
      onKey key (serve calls).1 = ws.flatMap (marked limit)) ∧
    (∀ d c, ((serve calls).2.advance d).counters key = some c → ∃ e, c.expires = some e ∧
      (serve calls).2.now + d < e ∧ e ≤ (serve calls).2.now + d + seconds window) ∧
    (∀ c : Call, c.key = key → c.limit = limit → c.window = window → seconds window ≤ c.delay →
      0 < limit → (c.run (serve calls).2).1.allowed = true) ∧
    ∀ a, within (seconds window) a (onKey key (serve calls).1) ≤ 2 * limit := by
  obtain ⟨ws, hws, htracks, hkey⟩ := serve_windows hwindow hcalls
  refine ⟨⟨ws, hws, hkey⟩, ?_, ?_, ?_⟩
  · intro d c hc
    exact (htracks.advance hws).expires hc
  · intro c hc hlimit hwin hdelay hpos
    have hpos' : 0 < c.window := by omega
    have hgone : ((serve calls).2.advance c.delay).counters c.key = none := by
      cases hcounter : ((serve calls).2).counters c.key with
      | none => simp [Redis.advance, hcounter]
      | some old =>
        obtain ⟨e, he, -, hle⟩ := htracks.expires (hc ▸ hcounter)
        have hend : e ≤ (serve calls).2.now + c.delay :=
          Nat.le_trans hle (Nat.add_le_add_left hdelay _)
        simp [Redis.advance, hcounter, he, hend]
    rw [(run_of_none hpos' hgone).1]
    exact decide_eq_true (by omega)
  · intro a
    rw [hkey]
    exact within_flatMap_le hws

/-- Two calls at the start of a window and two at its end, with room for two. -/
def bursts : List Call :=
  let key : Text := "ratelimit:login:192.0.2.1"
  [⟨0, key, 2, 60⟩, ⟨0, key, 2, 60⟩, ⟨seconds 59, key, 2, 60⟩, ⟨seconds 1, key, 2, 60⟩,
    ⟨0, key, 2, 60⟩]

theorem fixed_window_bounds_bursts :
    onKey "ratelimit:login:192.0.2.1" (serve bursts).1 =
      [(0, true), (0, true), (seconds 59, false), (seconds 60, true), (seconds 60, true)] ∧
    within (seconds 60) 0 (onKey "ratelimit:login:192.0.2.1" (serve bursts).1) = 4 ∧
    within (seconds 60) 0 (onKey "ratelimit:login:192.0.2.1" (serve bursts).1) ≤ 2 * 2 :=
  ⟨by decide +kernel, by decide +kernel,
    (fixed_window_bounds (by decide) (by decide)).2.2.2 0⟩

end RateLimit
end AdaptiveGateway
