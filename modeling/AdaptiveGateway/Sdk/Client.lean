/-
The client SDK: `createAdaptiveFetch`.

Every wrapped `fetch` runs to its end in one go, and so does each callback of a
measurement: the answer to the ping, the one that notes the time it took, and the one
that permits the next ping.  Between two of them anything else may run, so that a
client is a machine whose steps come in any order.  `Date.now()` is any number at all,
since the clock of a device can be set.

`pings` are the measurements under way.  `begun`, `noted` and `sent` are history: when
pings were begun, what came of those that have been noted, and the requests, all latest
first.
-/
import AdaptiveGateway.Detector.Signal
import Mathlib.Algebra.Order.Floor.Defs
import Mathlib.Data.Rat.Floor

namespace AdaptiveGateway
namespace Sdk.Client

open Codec Numeric Proxy Detector

def PING_INTERVAL_MS : Int := 60000

structure Options where
  gatewayUrl : Text
  autoPing : Bool := true

/-- `gatewayUrl.replace(/\/$/, "")`. -/
def trimSlash (url : Text) : Text := if url.getLast? = some '/' then url.dropLast else url

/-- The variables that the wrapped functions share. -/
structure Shared where
  lastRtt : Option Nat := none
  lastPingTime : Int := 0
  pingInFlight : Bool := false

/-! ## A call -/

/-- The first argument of `fetch`.  A header map has its names in lower case. -/
inductive Input where
  | string (address : Text)
  | request (address : Text) (headers : Dict Text Text)
  /-- A `URL` object. -/
  | url (address : Text)

/-- What `navigator.connection` offers; `none` where it is missing or empty. -/
structure Connection where
  effectiveType : Option Text := none
  saveData : Bool := false

/-- The value of `Save-Data` that is set. -/
def Connection.saveDataValue (c : Connection) : Option Text :=
  if c.saveData then some "on" else none

structure Arguments where
  input : Input
  /-- `init.headers`. -/
  headers : Dict Text Text := Dict.empty
  connection : Connection := {}
  /-- `Date.now()` -/
  now : Int
  /-- `performance.now()` -/
  performanceNow : ℚ

def Input.headers : Input → Dict Text Text
  | request _ headers => headers
  | _ => Dict.empty

/-- The address that is passed on. -/
def Input.target (o : Options) : Input → Text
  | string address =>
    if ("/" : Text).isPrefixOf address then trimSlash o.gatewayUrl ++ address else address
  | request address _ | url address => address

/-- `lastRtt.toString()`. -/
def rttText (n : Nat) : Text := intText n

def setIf (d : Dict Text Text) (name : Text) : Option Text → Dict Text Text
  | some value => d.set name value
  | none => d

/-- The headers of a request, with the last measurement. -/
def requestHeaders (o : Options) (lastRtt : Option Nat) (a : Arguments) : Dict Text Text :=
  let headers := a.headers.items.foldl (fun d e => d.set e.1 e.2) a.input.headers
  let headers := setIf headers "ect" a.connection.effectiveType
  let headers := setIf headers "save-data" a.connection.saveDataValue
  setIf headers "x-client-rtt" (if o.autoPing then lastRtt.map rttText else none)

/-- The test in front of a ping. -/
def pings (o : Options) (c : Shared) (now : Int) : Bool :=
  o.autoPing && !c.pingInFlight && decide (now - c.lastPingTime > PING_INTERVAL_MS)

/-! ## Measurements -/

/-- How far a measurement has come. -/
inductive Ping where
  | sent (start : ℚ)
  /-- `measureRtt` has returned. -/
  | measured (rtt : Option Nat)
  /-- The callback of `then` has run. -/
  | noted
deriving DecidableEq

/-- `Math.round`, of a time that is not negative. -/
def round (q : ℚ) : Nat := ⌊q + 1 / 2⌋.toNat

structure Sent where
  target : Text
  headers : Dict Text Text

structure World where
  shared : Shared := {}
  pings : List Ping := []
  begun : List Int := []
  noted : List (Option Nat) := []
  sent : List Sent := []

inductive Step where
  | fetch (a : Arguments)
  /-- The ping at this place is answered, or has failed. -/
  | settle (i : Nat) (ok : Bool) (performanceNow : ℚ)
  | then_ (i : Nat)
  | finally_ (i : Nat)

/-- The start of a measurement. -/
def begin (a : Arguments) (s : World) : World :=
  { s with
    shared := { s.shared with lastPingTime := a.now, pingInFlight := true }
    pings := s.pings ++ [.sent a.performanceNow]
    begun := a.now :: s.begun }

def step (o : Options) (s : World) : Step → Option World
  | .fetch a =>
    let s := if pings o s.shared a.now then begin a s else s
    some { s with sent := ⟨a.input.target o, requestHeaders o s.shared.lastRtt a⟩ :: s.sent }
  | .settle i ok performanceNow =>
    match s.pings[i]? with
    | some (.sent start) =>
      let rtt := if ok then some (round (performanceNow - start)) else none
      some { s with pings := s.pings.set i (.measured rtt) }
    | _ => none
  | .then_ i =>
    match s.pings[i]? with
    | some (.measured rtt) =>
      some { s with
        shared := { s.shared with lastRtt := rtt <|> s.shared.lastRtt }
        pings := s.pings.set i .noted
        noted := rtt :: s.noted }
    | _ => none
  | .finally_ i =>
    match s.pings[i]? with
    | some .noted => some { s with
        shared := { s.shared with pingInFlight := false }
        pings := s.pings.eraseIdx i }
    | _ => none

def run (o : Options) : World → List Step → Option World
  | s, [] => some s
  | s, x :: xs => (step o s x).bind fun s' => run o s' xs

/-! ## What holds between two steps -/

/-- The latest measurement that has succeeded. -/
def latest (noted : List (Option Nat)) : Option Nat := noted.findSome? id

structure Sound (o : Options) (s : World) : Prop where
  /-- At most one ping is under way, and the flag says whether. -/
  single : s.pings.length = if s.shared.pingInFlight then 1 else 0
  lastRtt : s.shared.lastRtt = latest s.noted
  /-- Each ping was begun more than a minute after the one before. -/
  spaced : (s.begun ++ [0]).Pairwise fun later earlier => earlier + PING_INTERVAL_MS < later
  lastPing : (s.begun ++ [0]).head? = some s.shared.lastPingTime
  quiet : o.autoPing = false → s.begun = [] ∧ s.noted = [] ∧ s.pings = []

variable {o : Options} {s s' : World}

theorem sound_start : Sound o {} where
  single := rfl
  lastRtt := rfl
  spaced := List.pairwise_singleton _ 0
  lastPing := rfl
  quiet _ := ⟨rfl, rfl, rfl⟩

theorem latest_cons (rtt : Option Nat) (noted : List (Option Nat)) :
    latest (rtt :: noted) = (rtt <|> latest noted) := by
  cases rtt <;> rfl

theorem pings_iff {c : Shared} {now : Int} : pings o c now = true ↔
    o.autoPing = true ∧ c.pingInFlight = false ∧ c.lastPingTime + PING_INTERVAL_MS < now := by
  simp only [pings, Bool.and_eq_true, Bool.not_eq_true', decide_eq_true_eq, and_assoc]
  refine and_congr_right fun _ => and_congr_right fun _ => ?_
  omega

theorem Sound.begin (h : Sound o s) {a : Arguments} (ha : pings o s.shared a.now = true) :
    Sound o (begin a s) := by
  obtain ⟨hauto, hidle, hlate⟩ := pings_iff.mp ha
  have hnone : s.pings = [] := List.length_eq_zero_iff.mp (by simpa [hidle] using h.single)
  refine ⟨by simp [Client.begin, hnone], h.lastRtt, ?_, rfl, fun hoff => ?_⟩
  · refine List.pairwise_cons.mpr ⟨fun earlier hearlier => ?_, h.spaced⟩
    -- The latest of the earlier pings is the one that the variable remembers.
    obtain ⟨rest, hrest⟩ := List.head?_eq_some_iff.mp h.lastPing
    have hspaced := h.spaced
    have hmem : earlier ∈ s.begun ++ [0] := hearlier
    rw [hrest] at hmem hspaced
    rcases List.mem_cons.mp hmem with rfl | hmem
    · exact hlate
    · have hbefore := (List.pairwise_cons.mp hspaced).1 earlier hmem
      unfold PING_INTERVAL_MS at *
      omega
  · rw [hauto] at hoff
    cases hoff

theorem ping_of_getElem? {i : Nat} {p : Ping} (h : Sound o s) (hp : s.pings[i]? = some p) :
    s.pings = [p] ∧ i = 0 ∧ s.shared.pingInFlight = true := by
  obtain ⟨hi, hget⟩ := List.getElem?_eq_some_iff.mp hp
  have hsingle := h.single
  split at hsingle
  next hflag =>
    obtain ⟨q, hq⟩ := List.length_eq_one_iff.mp hsingle
    obtain rfl : i = 0 := by omega
    rw [hq] at hp
    cases hp
    exact ⟨hq, rfl, hflag⟩
  next => omega

theorem autoPing_of_pings (h : Sound o s) (hne : s.pings ≠ []) : o.autoPing = true := by
  by_contra hoff
  exact hne (h.quiet (Bool.eq_false_iff.mpr hoff)).2.2

/-- No step disturbs what holds. -/
theorem Sound.step {x : Step} (h : Sound o s) (hs : step o s x = some s') : Sound o s' := by
  cases x with
  | fetch a =>
    obtain rfl := (Option.some.inj hs).symm
    by_cases ha : pings o s.shared a.now = true
    · have hbegun := h.begin ha
      rw [if_pos ha]
      exact ⟨hbegun.single, hbegun.lastRtt, hbegun.spaced, hbegun.lastPing, hbegun.quiet⟩
    · rw [if_neg ha]
      exact ⟨h.single, h.lastRtt, h.spaced, h.lastPing, h.quiet⟩
  | settle i ok performanceNow =>
    simp only [Client.step] at hs
    split at hs
    next start hp =>
      cases hs
      obtain ⟨hpings, rfl, hflag⟩ := ping_of_getElem? h hp
      have hauto := autoPing_of_pings h (by simp [hpings])
      exact ⟨by simp [hpings, hflag], h.lastRtt, h.spaced, h.lastPing, by simp [hauto]⟩
    next => cases hs
  | then_ i =>
    simp only [Client.step] at hs
    split at hs
    next rtt hp =>
      cases hs
      obtain ⟨hpings, rfl, hflag⟩ := ping_of_getElem? h hp
      have hauto := autoPing_of_pings h (by simp [hpings])
      refine ⟨by simp [hpings, hflag], ?_, h.spaced, h.lastPing, by simp [hauto]⟩
      show (rtt <|> s.shared.lastRtt) = latest (rtt :: s.noted)
      rw [latest_cons, h.lastRtt]
    next => cases hs
  | finally_ i =>
    simp only [Client.step] at hs
    split at hs
    next hp =>
      cases hs
      obtain ⟨hpings, rfl, -⟩ := ping_of_getElem? h hp
      have hauto := autoPing_of_pings h (by simp [hpings])
      exact ⟨by simp [hpings], h.lastRtt, h.spaced, h.lastPing, by simp [hauto]⟩
    next => cases hs

theorem Sound.run {xs : List Step} (h : Sound o s) (hs : run o s xs = some s') : Sound o s' := by
  induction xs generalizing s with
  | nil =>
    cases hs
    exact h
  | cons x xs ih =>
    obtain ⟨t, ht, hrest⟩ := Option.bind_eq_some_iff.mp hs
    exact ih (h.step ht) hrest

/-! ## The headers of a request -/

section Headers

variable {a : Arguments} {d : Dict Text Text}

/-- What the caller gives for a header: `init` goes before the request. -/
def Arguments.own (a : Arguments) (name : Text) : Option Text :=
  (a.headers.get? name).or (a.input.headers.get? name)

theorem get?_setIf (name name' : Text) (value : Option Text) :
    (setIf d name value).get? name' =
      if name = name' then value.or (d.get? name') else d.get? name' := by
  cases value with
  | none => simp [setIf]
  | some v =>
    rw [setIf, Dict.get?_set]
    split <;> rfl

theorem get?_merged (name : Text) :
    (a.headers.items.foldl (fun d e => d.set e.1 e.2) a.input.headers).get? name = a.own name := by
  rw [Dict.get?_foldl_set, Dict.values_items, Arguments.own]
  cases a.headers.get? name <;> rfl

theorem get?_clientRtt (o : Options) (lastRtt : Option Nat) (a : Arguments) :
    (requestHeaders o lastRtt a).get? "x-client-rtt" =
    (if o.autoPing then lastRtt.map rttText else none).or (a.own "x-client-rtt") := by
  simp [requestHeaders, get?_setIf, get?_merged]

theorem get?_ect (o : Options) (lastRtt : Option Nat) (a : Arguments) :
    (requestHeaders o lastRtt a).get? "ect" =
    a.connection.effectiveType.or (a.own "ect") := by
  simp [requestHeaders, get?_setIf, get?_merged]

theorem get?_saveData (o : Options) (lastRtt : Option Nat) (a : Arguments) :
    (requestHeaders o lastRtt a).get? "save-data" =
    a.connection.saveDataValue.or (a.own "save-data") := by
  simp [requestHeaders, get?_setIf, get?_merged]

end Headers

/-- In whatever order calls and callbacks run: at most one ping is under way, pings are
more than a minute apart, and each request carries the latest measurement that has
succeeded, which failures leave in place. -/
theorem client_runs {xs : List Step} (h : run o {} xs = some s) :
    s.pings.length ≤ 1 ∧
      s.begun.Pairwise (fun later earlier => earlier + PING_INTERVAL_MS < later) ∧
      (o.autoPing = false → s.begun = []) ∧
      ∀ a s', step o s (.fetch a) = some s' → ∃ x, s'.sent = x :: s.sent ∧
        x.target = a.input.target o ∧ x.headers.get? "x-client-rtt" =
          (if o.autoPing then (latest s.noted).map rttText else none).or
            (a.own "x-client-rtt") := by
  have hsound := sound_start.run h
  refine ⟨?_, (List.pairwise_append.mp hsound.spaced).1, fun hoff => (hsound.quiet hoff).1, ?_⟩
  · rw [hsound.single]
    split <;> omega
  · intro a s' hs
    cases hs
    have hlast : ∀ t : World, t.shared.lastRtt = s.shared.lastRtt → t.sent = s.sent →
        ∃ x, (⟨a.input.target o, requestHeaders o t.shared.lastRtt a⟩ : Sent) :: t.sent =
          x :: s.sent ∧ x.target = a.input.target o ∧ x.headers.get? "x-client-rtt" =
            (if o.autoPing then (latest s.noted).map rttText else none).or
              (a.own "x-client-rtt") := by
      intro t hrtt hsent
      refine ⟨_, by rw [hsent], rfl, ?_⟩
      rw [hrtt, hsound.lastRtt]
      exact get?_clientRtt o (latest s.noted) a
    split
    · exact hlast (begin a s) rfl rfl
    · exact hlast s rfl rfl

def mockOptions : Options := ⟨"http://g", true⟩

/-- A call, and a measurement of a fifth of a second. -/
def mockSteps : List Step :=
  [.fetch ⟨.string "/x", Dict.empty, {}, 70000, 0⟩, .settle 0 true 200, .then_ 0]

theorem client_runs_mock : ∃ s, run mockOptions {} mockSteps = some s ∧ s.pings.length ≤ 1 ∧
    latest s.noted = some 200 := by
  have hrun : run mockOptions {} mockSteps = some _ := rfl
  exact ⟨_, hrun, (client_runs hrun).1, by decide +kernel⟩

/-! ## The other end -/

theorem usable_ofRat_nat {n : Nat} (hn : n < 2 ^ 53) : Usable (Binary64.ofRat n) := by
  have hsmall : ((n : ℤ) : ℚ) = n := Int.cast_natCast n
  have hr : Representable (n : ℚ) :=
    ⟨n, 0, by rw [abs_of_nonneg (by positivity)]; exact_mod_cast hn, by norm_num,
      by rw [hsmall]; norm_num⟩
  have hl : |(n : ℚ)| < limit := by
    rw [abs_of_nonneg (by positivity), limit]
    calc (n : ℚ) < 2 ^ (53 : ℤ) := by exact_mod_cast hn
      _ ≤ _ := zpow_le_zpow_right₀ (by norm_num) (by norm_num)
  rw [Binary64.ofRat_eq hr hl]
  refine ⟨rfl, (Binary64.not_lt_zero rfl).mpr ?_⟩
  exact decide_eq_true (Nat.cast_nonneg n)

/-- The gateway classifies a request of the SDK by the latest measurement, whatever else
the request says of its connection; before the first one it goes by the connection. -/
theorem gateway_reads_latest {xs : List Step} (h : run o {} xs = some s) (hauto : o.autoPing = true)
    {float : Text → Option Binary64}
    (hfloat : ∀ n : Nat, float (intText n) = some (Binary64.ofRat n)) (t : Thresholds)
    {a : Arguments} (hs : step o s (.fetch a) = some s') :
    ∃ x, s'.sent = x :: s.sent ∧
      (∀ n, latest s.noted = some n → n < 2 ^ 53 →
        explicitSignal float t (.ofHeaders x.headers.items) =
          .ok (some (tierOf t (Binary64.ofRat n), some (Binary64.ofRat n)))) ∧
      (latest s.noted = none → a.own "x-client-rtt" = none →
        explicitSignal float t (.ofHeaders x.headers.items) =
          explicitSignal float t
            { ect := a.connection.effectiveType.or (a.own "ect")
              saveData := a.connection.saveDataValue.or (a.own "save-data") }) := by
  have hsound := sound_start.run h
  have hsent : ∃ x, s'.sent = x :: s.sent ∧ x.headers = requestHeaders o (latest s.noted) a := by
    cases hs
    split
    · exact ⟨_, rfl, congrArg (requestHeaders o · a) hsound.lastRtt⟩
    · exact ⟨_, rfl, congrArg (requestHeaders o · a) hsound.lastRtt⟩
  obtain ⟨x, hx, hheaders⟩ := hsent
  have hhints : Hints.ofHeaders x.headers.items =
      { clientRtt := ((latest s.noted).map rttText).or (a.own "x-client-rtt")
        ect := a.connection.effectiveType.or (a.own "ect")
        saveData := a.connection.saveDataValue.or (a.own "save-data") } := by
    have hrtt := get?_clientRtt o (latest s.noted) a
    rw [if_pos hauto] at hrtt
    rw [hheaders, ← hrtt, ← get?_ect o (latest s.noted), ← get?_saveData o (latest s.noted)]
    rfl
  refine ⟨x, hx, fun n hn hlt => ?_, fun hnone hown => ?_⟩
  · have husable := usable_ofRat_nat hlt
    have hparse : Interpreter.parseFloat (some (Binary64.ofRat n)) = some (Binary64.ofRat n) := by
      refine Option.filter_eq_some_iff.mpr ⟨rfl, ?_⟩
      rw [husable.1, husable.nonneg]
      rfl
    rw [explicitSignal_eq, hhints]
    simp only [hn, Option.map_some, rttText, Option.some_or, Option.bind_some, hfloat, hparse]
  · rw [hhints, hnone, hown]
    rfl

open Classical in
/-- Reads decimal digits, and nothing else. -/
noncomputable def mockFloat (text : Text) : Option Binary64 :=
  if h : ∃ n : Nat, intText n = text then some (Binary64.ofRat h.choose) else none

theorem mockFloat_intText (n : Nat) : mockFloat (intText n) = some (Binary64.ofRat n) := by
  have h : ∃ m : Nat, intText m = intText n := ⟨n, rfl⟩
  have heq : h.choose = n := Int.ofNat.inj (intText_injective h.choose_spec)
  rw [mockFloat, dif_pos h, heq]

/-- A measurement of a fifth of a second, told to a gateway with the usual thresholds by a
request that claims a fast connection. -/
theorem gateway_reads_latest_mock : ∃ s s' x,
    run mockOptions {} mockSteps = some s ∧
    step mockOptions s (.fetch ⟨.string "/y", Dict.empty, ⟨some "4g", false⟩, 70001, 1⟩) =
      some s' ∧ s'.sent = x :: s.sent ∧
    explicitSignal mockFloat crisp (.ofHeaders x.headers.items) =
      .ok (some
        (tierOf crisp (Binary64.ofRat (200 : Nat)), some (Binary64.ofRat (200 : Nat)))) := by
  have hrun : run mockOptions {} mockSteps = some _ := rfl
  obtain ⟨x, hx, hlatest, -⟩ := gateway_reads_latest hrun rfl mockFloat_intText crisp
    (a := ⟨.string "/y", Dict.empty, ⟨some "4g", false⟩, 70001, 1⟩) rfl
  exact ⟨_, _, x, hrun, rfl, hx, hlatest 200 (by decide +kernel) (by decide)⟩

end Sdk.Client
end AdaptiveGateway
