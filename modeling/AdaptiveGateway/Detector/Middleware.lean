/-
The network detector around a request.

A declaration of the client settles the tier, and the request leaves no trace.  Without one
the tier is read from the state that is kept for the client's address, and what the request
has cost is folded into that state for the requests to come.  Any number of requests of any
clients are under way at once, Redis may fail at each command or lose a key, and the handlers
behind the middleware do as they like.

A trace is history: the updates in the state when a request read it, the tier that the
handlers were given with what came of them, and the rows and the counts of the request.
Redis knows an update by the number of its request and its sample.
-/
import AdaptiveGateway.ClientIdentity
import AdaptiveGateway.Concurrent.Calls
import AdaptiveGateway.Concurrent.Volatile
import AdaptiveGateway.Detector.Signal
import AdaptiveGateway.Detector.Transparent

namespace AdaptiveGateway
namespace Detector

open Codec Numeric Concurrent Proxy ClientIdentity
open Binary64 (zero)
open Watch (Cell Fault)
open Watch.Volatile (Kept)

/-! ## Requests and what comes of them -/

/-- What the middleware is set up with. -/
structure Middleware where
  it : Interpreter
  thresholds : Thresholds
  ip : IpAddress
  trustedProxies : List ip.Network
  /-- `f"{x:.1f}"` -/
  fixed1 : Binary64 → Text

structure Visit where
  method : Text
  path : Text
  /-- `request.client.host` -/
  client : Option Text
  headers : List (Text × Text)

structure LogRecord where
  rttMs : Binary64
  responseSizeOriginal : Nat
  upstreamLatencyMs : Option Binary64 := none
  responseSizeOptimized : Option Nat := none

/-- The response, the time since the request arrived, and what the handlers have left in
`request.state` and in the scope. -/
structure Handled where
  response : Response
  elapsedMs : Binary64
  upstreamLatencyMs : Option Binary64 := none
  responseSizeOptimized : Option Nat := none
  requestLogRecord : Option LogRecord := none
  servedFromCache : Bool := false
  /-- `route.path`, `none` where nothing matched. -/
  route : Option Text := none

/-- The labels of `gateway_requests_total`. -/
structure Labels where
  method : Text
  route : Text
  quality : NetworkQuality
  cacheHit : Bool

inductive Outcome where
  | answered (response : Response)
  /-- The exception of the handlers. -/
  | raised (e : Exc)

def Tier.quality : Tier → NetworkQuality
  | good => .good
  | degraded => .degraded
  | poor => .poor

def SKIP_PATHS : List Text := ["/health", "/metrics", "/favicon.ico"]

def stateKey (clientId : Text) : Text := ("netq:" : Text) ++ clientId

namespace Handled

/-- `upstream_latency_ms or 0.0`. -/
def upstreamMs (h : Handled) : Binary64 := h.upstreamLatencyMs.getD zero

/-- `max(elapsed_ms - upstream_ms, 0.0)`. -/
def residual (h : Handled) : Binary64 :=
  let d := h.elapsedMs - h.upstreamMs
  if d.lt zero then zero else d

def linkRtt (h : Handled) (explicitRtt : Option Binary64) : Binary64 :=
  explicitRtt.getD h.residual

/-- The row that is written. -/
def logRow (h : Handled) (record : LogRecord) : LogRecord :=
  { record with
    rttMs := h.elapsedMs
    upstreamLatencyMs := some h.upstreamMs
    responseSizeOptimized := some (h.responseSizeOptimized.getD record.responseSizeOriginal) }

end Handled

/-! ## The program -/

inductive Cmd where
  /-- `get_redis().get`. -/
  | load (key : Text)
  /-- A command of the pipeline. -/
  | pipeline (key : Text) (c : Watch.Cmd (Option Text))
  /-- `call_next`, with the tier in `request.state`. -/
  | next (quality : NetworkQuality)
  | enqueueLog (record : LogRecord)
  | count (labels : Labels)

abbrev Ans : Cmd → Type
  | .load _ => Option Text
  | .pipeline _ c => Watch.Ans c
  | .next _ => Except Exc Handled
  | _ => Unit

abbrev Prog := Concurrent.Prog Cmd Ans (Fault StateExc)

def await (c : Cmd) : Prog (Ans c) := Concurrent.Prog.issue c

namespace Middleware

variable (m : Middleware)

/-- `_client_id`. -/
def clientId (v : Visit) : Text := clientIp m.ip m.trustedProxies v.client v.headers

def key (v : Visit) : Text := stateKey (m.clientId v)

/-- `_explicit_signal`. -/
def explicit (v : Visit) : Except Exc (Option (NetworkQuality × Option Binary64)) :=
  explicitSignal m.it.py.float m.thresholds (Hints.ofHeaders v.headers)

/-- `_load_state`. -/
def loadState (key : Text) : Prog RttState :=
  Prog.except (do
      let raw ← await (.load key)
      Prog.ofExcept ((decodeState m.it raw).mapError .raised))
    fun
      | .unavailable => some (pure {})
      | _ => none

/-- `_update_state`, on the key of the client. -/
def update (key : Text) (sampleMs : Binary64) : Prog Unit :=
  Prog.interpret (fun c => await (.pipeline key c)) (updateState m.it m.thresholds sampleMs)

/-- The three fields that a response is given. -/
def stamp (quality : NetworkQuality) (explicitRtt : Option Binary64) (h : Handled) : Response :=
  ((h.response.setHeader "X-Network-Quality" quality.value).setHeader "X-RTT-Ms"
    (m.fixed1 (h.linkRtt explicitRtt))).setHeader "X-RTT-Source"
      (if explicitRtt.isSome then "client-hint" else "server-processing-estimate")

def labels (v : Visit) (quality : NetworkQuality) (h : Handled) : Labels :=
  ⟨v.method, h.route.getD "unmatched", quality, h.servedFromCache⟩

/-- The row that the handlers have left to be written. -/
def logRequest (h : Handled) : Prog Unit :=
  match h.requestLogRecord with
  | some record => await (.enqueueLog (h.logRow record))
  | none => pure ()

/-- `dispatch` after `_update_state`. -/
def finish (v : Visit) (quality : NetworkQuality) (explicitRtt : Option Binary64) (h : Handled) :
    Prog Outcome := do
  logRequest h
  await (.count (labels v quality h))
  return .answered (m.stamp quality explicitRtt h)

/-- `dispatch`. -/
def dispatch (v : Visit) : Prog Outcome :=
  if SKIP_PATHS.contains v.path then do
    match ← await (.next .good) with
    | .error e => return .raised e
    | .ok h => return .answered h.response
  else
    match m.explicit v with
    | .error e => return .raised e
    | .ok (some (quality, explicitRtt)) => do
      match ← await (.next quality) with
      | .error e => return .raised e
      | .ok h => m.finish v quality explicitRtt h
    | .ok none => do
      let state ← m.loadState (m.key v)
      match ← await (.next state.tier.quality) with
      | .error e => return .raised e
      | .ok h => do
        m.update (m.key v) (h.linkRtt none)
        m.finish v state.tier.quality none h

end Middleware

/-! ## Requests side by side -/

/-- An update: the request it is for, and its sample. -/
abbrev Sample := Nat × Binary64

/-- What is on record of a request. -/
structure Trace where
  seen : Option (List Sample) := none
  handled : Option (NetworkQuality × Except Exc Handled) := none
  logged : List LogRecord := []
  counted : List Labels := []

structure World where
  cells : Text → Cell Sample (Option Text) := fun _ => { value := none }
  traces : Nat → Trace := fun _ => {}

/-- The sample of a request whose handlers have answered. -/
def Trace.sample (tr : Trace) : Binary64 :=
  match tr.handled with
  | some (_, .ok h) => h.linkRtt none
  | _ => zero

def World.note (i : Nat) (f : Trace → Trace) (s : World) : World :=
  { s with traces := Function.update s.traces i (f (s.traces i)) }

def World.setCell (key : Text) (cell : Cell Sample (Option Text)) (s : World) : World :=
  { s with cells := Function.update s.cells key cell }

inductive Choice where
  | redis (ch : Watch.Volatile.Choice)
  | handled (o : Except Exc Handled)
  | done

def exec (i : Nat) :
    (c : Cmd) → Choice → World → Option (Except (Fault StateExc) (Ans c) × World)
  | .load key, .redis .up, s =>
    some (.ok (s.cells key).value, s.note i ({ · with seen := some (s.cells key).commits }))
  | .load _, .redis _, s => some (.error .unavailable, s)
  | .pipeline key c, .redis ch, s =>
    (Watch.Volatile.exec (i, (s.traces i).sample) c ch (s.cells key)).map fun o =>
      (o.1, s.setCell key o.2)
  | .next quality, .handled o, s =>
    some (.ok o, s.note i ({ · with handled := some (quality, o) }))
  | .enqueueLog record, .done, s =>
    some (.ok (), s.note i fun tr => { tr with logged := tr.logged ++ [record] })
  | .count labels, .done, s =>
    some (.ok (), s.note i fun tr => { tr with counted := tr.counted ++ [labels] })
  | _, _, _ => none

/-- A key runs out or is evicted. -/
inductive Event where
  | lose (key : Text)

def Event.apply : Event → World → World
  | .lose key, s => s.setCell key (Watch.Volatile.reset none (s.cells key))

def middleware (m : Middleware) (visits : Nat → Visit) :
    Machine Nat Cmd Ans (Fault StateExc) Outcome World Choice Event where
  exec := exec
  env e s := some (e.apply s)
  drop _ s := s
  boot i := m.dispatch (visits i)
  again _ _ := none

/-! ## What holds at all times -/

namespace Middleware

variable (m : Middleware) (visits : Nat → Visit)

/-- The text with one more sample folded in. -/
def applySample (c : Sample) (raw : Option Text) : Except StateExc (Option Text) :=
  Detector.update m.it m.thresholds c.2 raw

/-- The state with these samples in it, one after another. -/
def estimate (cs : List Sample) : RttState :=
  (cs.map Prod.snd).foldl (fun st x => advance st x m.thresholds) {}

/-- A request that says nothing about its connection. -/
structure Passive (v : Visit) : Prop where
  adapted : SKIP_PATHS.contains v.path = false
  silent : m.explicit v = .ok none

/-- The sample comes from a request of this client that declared nothing and was answered. -/
structure Sourced (key : Text) (s : World) (c : Sample) : Prop where
  key : m.key (visits c.1) = key
  passive : m.Passive (visits c.1)
  answered : ∃ quality h, (s.traces c.1).handled = some (quality, .ok h) ∧ c.2 = h.linkRtt none

/-- What a request has read are samples of other requests of its client, one of each. -/
structure Recorded (s : World) (i : Nat) (cs : List Sample) : Prop where
  sourced : ∀ c ∈ cs, m.Sourced visits (m.key (visits i)) s c
  others : ∀ c ∈ cs, c.1 ≠ i
  nodup : (cs.map Prod.fst).Nodup

structure Sound (s : World) : Prop where
  kept : ∀ key, Kept m.applySample none (s.cells key)
  cells : ∀ key, ∀ c ∈ (s.cells key).commits, m.Sourced visits key s c
  seen : ∀ i cs, (s.traces i).seen = some cs → m.Recorded visits s i cs

end Middleware

/-- Redis has had the sample, or some request has seen it there. -/
def World.Known (s : World) (c : Sample) : Prop :=
  (∃ key, c ∈ (s.cells key).commits) ∨ ∃ j cs, (s.traces j).seen = some cs ∧ c ∈ cs

def World.Fresh (s : World) (i : Nat) : Prop := ∀ x, ¬s.Known (i, x)

/-- What the others leave alone of request `i`. -/
structure Rely (i : Nat) (s t : World) : Prop where
  cells : ∀ key x, Watch.Volatile.Rely (i, x) (s.cells key) (t.cells key)
  known : ∀ x, t.Known (i, x) → s.Known (i, x)
  trace : t.traces i = s.traces i

section

variable {m : Middleware} {visits : Nat → Visit} {i j : Nat} {s t u : World} {key : Text}

theorem Rely.refl (i : Nat) (s : World) : Rely i s s :=
  ⟨fun _ _ => .refl _ _, fun _ h => h, rfl⟩

theorem Rely.trans (h : Rely i s t) (h' : Rely i t u) : Rely i s u where
  cells key x := (h.cells key x).trans (h'.cells key x)
  known x hx := h.known x (h'.known x hx)
  trace := h'.trace.trans h.trace

theorem World.Fresh.mono (h : s.Fresh i) (hst : Rely i s t) : t.Fresh i :=
  fun x hx => h x (hst.known x hx)

@[simp] theorem World.note_self (i : Nat) (f : Trace → Trace) (s : World) :
    (s.note i f).traces i = f (s.traces i) := Function.update_self _ _ _

theorem World.note_of_ne (f : Trace → Trace) (s : World) (hij : i ≠ j) :
    (s.note i f).traces j = s.traces j := Function.update_of_ne (Ne.symm hij) _ _

theorem World.setCell_self (key : Text) (cell : Cell Sample (Option Text)) (s : World) :
    (s.setCell key cell).cells key = cell := Function.update_self _ _ _

theorem World.setCell_cases {cell : Cell Sample (Option Text)}
    {P : Cell Sample (Option Text) → Prop} {k : Text} (hkey : k = key → P cell)
    (hother : k ≠ key → P (s.cells k)) :
    P ((s.setCell key cell).cells k) := by
  by_cases hk : k = key
  · subst hk
    show P (Function.update s.cells k cell k)
    rw [Function.update_self]
    exact hkey rfl
  · show P (Function.update s.cells key cell k)
    rw [Function.update_of_ne hk]
    exact hother hk

theorem Middleware.sound_start : m.Sound visits {} where
  kept _ := Watch.Volatile.kept_start _ _
  cells _ _ h := by cases h
  seen _ _ h := by cases h

/-- A note of a request that Redis has not heard of keeps the samples of the others. -/
theorem Middleware.Sourced.note {f : Trace → Trace} {c : Sample} (h : m.Sourced visits key s c)
    (hf : c.1 = i → (f (s.traces i)).handled = (s.traces i).handled) :
    m.Sourced visits key (s.note i f) c where
  key := h.key
  passive := h.passive
  answered := by
    by_cases hc : c.1 = i
    · rw [hc, World.note_self, hf hc, ← hc]
      exact h.answered
    · rw [World.note_of_ne f s (Ne.symm hc)]
      exact h.answered

/-- A note makes no sample known. -/
theorem World.Known.of_note {f : Trace → Trace} {c : Sample}
    (hseen : ∀ cs, (f (s.traces i)).seen = some cs → ∀ c ∈ cs, s.Known c)
    (h : (s.note i f).Known c) : s.Known c := by
  rcases h with hcell | ⟨k, cs, hk, hc⟩
  · exact .inl hcell
  · by_cases hki : i = k
    · subst hki
      rw [World.note_self] at hk
      exact hseen cs hk c hc
    · rw [World.note_of_ne f s hki] at hk
      exact .inr ⟨k, cs, hk, hc⟩

theorem World.Fresh.note {f : Trace → Trace} (h : s.Fresh i)
    (hseen : ∀ cs, (f (s.traces i)).seen = some cs → ∀ c ∈ cs, s.Known c)
    (hst : Rely i (s.note i f) t) : t.Fresh i :=
  fun x hx => h x ((hst.known x hx).of_note hseen)

theorem World.known_of_seen {cs : List Sample} (h : (s.traces i).seen = some cs) :
    ∀ c ∈ cs, s.Known c := fun _ hc => .inr ⟨i, cs, h, hc⟩

/-- A note keeps the invariant if it touches no sample and what it says was seen is so. -/
theorem Middleware.Sound.note {f : Trace → Trace} (hs : m.Sound visits s)
    (hhandled : s.Fresh i ∨ (f (s.traces i)).handled = (s.traces i).handled)
    (hseen : ∀ cs, (f (s.traces i)).seen = some cs →
      m.Recorded visits s i cs ∧ ∀ c ∈ cs, s.Known c) :
    m.Sound visits (s.note i f) ∧ ∀ j, i ≠ j → Rely j s (s.note i f) := by
  have hkeep : ∀ c, s.Known c → c.1 = i → (f (s.traces i)).handled = (s.traces i).handled := by
    rintro ⟨k, x⟩ hknown rfl
    exact hhandled.resolve_left fun hfresh => hfresh x hknown
  have hsourced : ∀ key c, s.Known c → m.Sourced visits key s c →
      m.Sourced visits key (s.note i f) c := fun key c hknown hc => hc.note (hkeep c hknown)
  have hknown : ∀ c, (s.note i f).Known c → s.Known c :=
    fun c => World.Known.of_note fun cs hcs => (hseen cs hcs).2
  have hbefore : ∀ k cs, ((s.note i f).traces k).seen = some cs → m.Recorded visits s k cs := by
    intro k cs hk
    by_cases hki : i = k
    · subst hki
      rw [World.note_self] at hk
      exact (hseen cs hk).1
    · rw [World.note_of_ne f s hki] at hk
      exact hs.seen k cs hk
  refine ⟨⟨hs.kept, fun key c hc => hsourced key c (.inl ⟨key, hc⟩) (hs.cells key c hc), ?_⟩, ?_⟩
  · intro k cs hk
    obtain ⟨hold, hothers, hnodup⟩ := hbefore k cs hk
    exact ⟨fun c hc => hsourced _ c (hknown c (.inr ⟨k, cs, hk, hc⟩)) (hold c hc), hothers, hnodup⟩
  · intro j hij
    exact ⟨fun key x => .refl _ _, fun x => hknown (j, x), World.note_of_ne f s hij⟩

/-- A cell may change if the others are left alone and what is new in it is sourced. -/
theorem Middleware.Sound.setCell {cell : Cell Sample (Option Text)} {p : Nat → Prop}
    (hs : m.Sound visits s) (hkept : Kept m.applySample none cell)
    (hcommits : ∀ c ∈ cell.commits, m.Sourced visits key s c)
    (hrely : ∀ j, p j → ∀ x, Watch.Volatile.Rely (j, x) (s.cells key) cell) :
    m.Sound visits (s.setCell key cell) ∧ ∀ j, p j → Rely j s (s.setCell key cell) := by
  refine ⟨⟨fun k => ?_, fun k => ?_, fun i cs h => ?_⟩,
    fun j hj => ⟨fun k x => ?_, fun x hx => ?_, rfl⟩⟩
  · exact World.setCell_cases (P := Kept m.applySample none) (fun _ => hkept) fun _ => hs.kept k
  · refine World.setCell_cases (P := fun cell => ∀ c ∈ cell.commits,
      m.Sourced visits k (s.setCell key _) c) (fun hk c hc => ?_) fun _ c hc => ?_
    · subst hk
      exact ⟨(hcommits c hc).key, (hcommits c hc).passive, (hcommits c hc).answered⟩
    · exact ⟨(hs.cells k c hc).key, (hs.cells k c hc).passive, (hs.cells k c hc).answered⟩
  · obtain ⟨hsourced, hothers, hnodup⟩ := hs.seen i cs h
    exact ⟨fun c hc => ⟨(hsourced c hc).key, (hsourced c hc).passive, (hsourced c hc).answered⟩,
      hothers, hnodup⟩
  · exact World.setCell_cases (P := Watch.Volatile.Rely (j, x) (s.cells k))
      (fun hk => hk ▸ hrely j hj x) fun _ => .refl _ _
  · rcases hx with ⟨k, hk⟩ | hseen
    · refine .inl ⟨k, ?_⟩
      refine World.setCell_cases
        (P := fun cell => (j, x) ∈ cell.commits → (j, x) ∈ (s.cells k).commits)
        (fun hkey => ?_) (fun _ h => h) hk
      rw [hkey]
      exact (hrely j hj x).mem
    · exact .inr hseen

/-- No request is in a state twice. -/
theorem Middleware.Sound.commits_nodup (hs : m.Sound visits s) (key : Text) :
    ((s.cells key).commits.map Prod.fst).Nodup := by
  refine (hs.kept key).nodup.map_on fun c hc d hd hcd => Prod.ext hcd ?_
  obtain ⟨q, h, hh, hx⟩ := (hs.cells key c hc).answered
  obtain ⟨q', h', hh', hx'⟩ := (hs.cells key d hd).answered
  rw [← hcd, hh] at hh'
  cases hh'
  rw [hx, hx']

/-- What a request that Redis has not heard of can read under the key of its client. -/
theorem Middleware.Sound.recorded (hs : m.Sound visits s) (hfresh : s.Fresh i) :
    m.Recorded visits s i (s.cells (m.key (visits i))).commits where
  sourced c hc := hs.cells _ c hc
  others := by
    rintro c hc rfl
    exact hfresh c.2 (.inl ⟨_, hc⟩)
  nodup := hs.commits_nodup _

/-- The text that Redis has can be read, and stands for the samples that went into it. -/
theorem Middleware.Sound.decodes (hs : m.Sound visits s) (hit : m.it.Faithful)
    (ht : m.thresholds.Valid) (key : Text) :
    decodeState m.it (s.cells key).value = .ok (m.estimate (s.cells key).commits) := by
  obtain ⟨raw, hraw, hdecode⟩ := exists_foldlM_update hit ht
    ((s.cells key).commits.map Prod.snd) (show decodeState m.it none = .ok {} from rfl)
  have hvalue := (hs.kept key).value
  rw [List.foldlM_map] at hraw
  have heq : (Except.ok raw : Except StateExc _) = .ok (s.cells key).value := hraw.symm.trans hvalue
  rw [← Except.ok.inj heq]
  exact hdecode

/-- An update can be computed from everything that Redis can hold. -/
theorem Middleware.not_raises (hit : m.it.Faithful) (ht : m.thresholds.Valid) (c : Sample)
    (x : StateExc) : ¬Watch.Raises m.applySample none c x := by
  rintro ⟨cs, v, hv, herror⟩
  obtain ⟨raw, hraw, hdecode⟩ := exists_foldlM_update hit ht (cs.map Prod.snd)
    (show decodeState m.it none = .ok {} from rfl)
  rw [List.foldlM_map] at hraw
  have heq : (Except.ok raw : Except StateExc _) = .ok v := hraw.symm.trans hv
  rw [Except.ok.inj heq] at hdecode
  rw [Middleware.applySample, Detector.update, hdecode] at herror
  cases herror

end

/-! ## The requests, one by one -/

namespace Middleware

variable (m : Middleware) (visits : Nat → Visit)

/-- The state that a request has read, which is a fresh one if Redis was not there. -/
def found (tr : Trace) : RttState := (tr.seen.map m.estimate).getD {}

/-- The tier that a request is given. -/
def assigned (v : Visit) (tr : Trace) : NetworkQuality :=
  if SKIP_PATHS.contains v.path then .good
  else
    match m.explicit v with
    | .ok (some (quality, _)) => quality
    | _ => (m.found tr).tier.quality

/-- The round-trip time that the client has declared. -/
def declaredRtt (v : Visit) : Option Binary64 :=
  match m.explicit v with
  | .ok (some (_, rtt)) => rtt
  | _ => none

/-- What the client is answered, and what is counted and written for the request. -/
structure Concluded (i : Nat) (outcome : Outcome) (s : World) : Prop where
  handled : ∃ o, (s.traces i).handled = some (m.assigned (visits i) (s.traces i), o)
  /-- An exception of the handlers goes on its way, and nothing else does. -/
  raised : ∀ e, outcome = .raised e ↔ ∃ quality, (s.traces i).handled = some (quality, .error e)
  skipped : ∀ quality h, SKIP_PATHS.contains (visits i).path = true →
    (s.traces i).handled = some (quality, .ok h) → outcome = .answered h.response
  answered : ∀ quality h, SKIP_PATHS.contains (visits i).path = false →
    (s.traces i).handled = some (quality, .ok h) →
    outcome = .answered (m.stamp quality (m.declaredRtt (visits i)) h) ∧
      (s.traces i).logged = (h.requestLogRecord.map h.logRow).toList ∧
      (s.traces i).counted = [labels (visits i) quality h]
  /-- Nothing is learnt from a request that is skipped, declares itself, or fails. -/
  traceless : ¬m.Passive (visits i) ∨ (∃ e, outcome = .raised e) → s.Fresh i

def contract : Contract (middleware m visits) Guard.any where
  I := m.Sound visits
  R := Rely
  G i s t := ∀ j, i ≠ j → Rely j s t
  Q i r s := ∃ outcome, r = .ok outcome ∧ m.Concluded visits i outcome s
  refl := Rely.refl
  trans _ _ _ _ := Rely.trans
  others _ j _ _ hij _ _ hG := hG j hij
  env e s s' _ hs h := by
    cases h
    cases e with
    | lose key =>
      obtain ⟨hs', hrely⟩ := hs.setCell (p := fun _ => True)
        (Watch.Volatile.kept_reset m.applySample none (s.cells key)) (fun c hc => by cases hc)
        fun j _ x => Watch.Volatile.rely_reset none (j, x) (s.cells key)
      exact ⟨hs', fun j => hrely j trivial⟩
  crash i s _ hs := ⟨hs, fun j _ => Rely.refl j s⟩

variable {m visits} {i : Nat} {s : World} {tr : Trace}

/-- A command that only makes a note. -/
theorem wp_note {c : Cmd} {f : Ans c → Trace → Trace}
    {Q : Except (Fault StateExc) (Ans c) → World → Prop}
    (hexec : ∀ ch s r s', exec i c ch s = some (r, s') → ∃ a, r = .ok a ∧ s' = s.note i (f a))
    (hnote : ∀ a, m.Sound visits s → m.Sound visits (s.note i (f a)) ∧
      ∀ j, i ≠ j → Rely j s (s.note i (f a)))
    (hQ : ∀ a t, Rely i (s.note i (f a)) t → Q (.ok a) t) :
    (await c).wp ((m.contract visits).pact i) Q s := by
  refine Prog.wp_issue ?_
  rintro r s' ⟨ch, -, hs, he⟩
  obtain ⟨a, rfl, rfl⟩ := hexec ch s r s' he
  obtain ⟨hs', hG⟩ := hnote a hs
  exact ⟨hs', hG, fun t _ hst => hQ a t hst⟩

theorem wp_next (quality : NetworkQuality) (hfresh : s.Fresh i) (htr : s.traces i = tr) :
    (await (.next quality)).wp ((m.contract visits).pact i)
      (fun r t => ∃ o, r = .ok o ∧ t.Fresh i ∧
        t.traces i = { tr with handled := some (quality, o) }) s := by
  refine wp_note (f := fun o tr => { tr with handled := some (quality, o) }) ?_ ?_ ?_
  · intro ch s r s' he
    cases ch <;> cases he
    exact ⟨_, rfl, rfl⟩
  · intro o hs
    exact hs.note (.inl hfresh) fun cs hcs => ⟨hs.seen i cs hcs, World.known_of_seen hcs⟩
  · intro o t hst
    exact ⟨o, rfl, hfresh.note (fun _ => World.known_of_seen) hst, by
      rw [hst.trace, World.note_self, htr]⟩

/-- The state that is read is the one on record. -/
theorem wp_loadState (hit : m.it.Faithful) (ht : m.thresholds.Valid) (hfresh : s.Fresh i)
    (htr : s.traces i = {}) :
    (m.loadState (m.key (visits i))).wp ((m.contract visits).pact i)
      (fun r t => ∃ sn, t.traces i = { seen := sn } ∧ r = .ok (m.found (t.traces i)) ∧
        t.Fresh i) s := by
  have hload : (await (.load (m.key (visits i)))).wp ((m.contract visits).pact i)
      (fun r t => t.Fresh i ∧ match r with
        | .ok raw => ∃ cs, t.traces i = { seen := some cs } ∧
            decodeState m.it raw = .ok (m.estimate cs)
        | .error e => e = .unavailable ∧ t.traces i = {}) s := by
    refine Prog.wp_issue ?_
    rintro r s' ⟨ch, -, hs, he⟩
    have haway : m.Sound visits s ∧ (∀ j, i ≠ j → Rely j s s) ∧
        ∀ t, m.Sound visits t → Rely i s t → t.Fresh i ∧
          Fault.unavailable = (Fault.unavailable : Fault StateExc) ∧ t.traces i = {} :=
      ⟨hs, fun j _ => Rely.refl j s, fun t _ hst => ⟨hfresh.mono hst, rfl, hst.trace.trans htr⟩⟩
    cases ch with
    | redis ch =>
      cases ch with
      | up =>
        cases he
        have hknown : ∀ cs, some (s.cells (m.key (visits i))).commits = some cs →
            ∀ c ∈ cs, s.Known c := by
          rintro _ ⟨⟩ c hc
          exact .inl ⟨_, hc⟩
        obtain ⟨hs', hG⟩ := hs.note (i := i)
          (f := ({ · with seen := some (s.cells (m.key (visits i))).commits })) (.inl hfresh)
          fun cs hcs => ⟨Option.some.inj hcs ▸ hs.recorded hfresh, hknown cs hcs⟩
        refine ⟨hs', hG, fun t _ hst => ⟨hfresh.note hknown hst, _, ?_, hs.decodes hit ht _⟩⟩
        rw [hst.trace, World.note_self, htr]
      | down => cases he; exact haway
      | lost => cases he; exact haway
    | handled => cases he
    | done => cases he
  refine Prog.wp_except (Prog.wp_mono (Q := fun r t => match r with
    | .ok st => ∃ sn, t.traces i = { seen := sn } ∧ st = m.found (t.traces i) ∧ t.Fresh i
    | .error e => e = .unavailable ∧ t.traces i = {} ∧ t.Fresh i) (fun r t hr => ?_)
    (Prog.wp_seq hload (fun e t ht => ⟨ht.2.1, ht.2.2, ht.1⟩) fun raw t ht => ?_))
  · cases r with
    | ok st =>
      obtain ⟨sn, htrace, rfl, hfresh⟩ := hr
      exact ⟨sn, htrace, rfl, hfresh⟩
    | error e =>
      obtain ⟨rfl, htrace, hfresh⟩ := hr
      exact ⟨none, htrace, by rw [htrace]; rfl, hfresh⟩
  · obtain ⟨hfresh, cs, htrace, hdecode⟩ := ht
    rw [hdecode]
    exact ⟨some cs, htrace, by rw [htrace]; rfl, hfresh⟩

/-- The sample is folded in, or Redis could not be made to take it. -/
theorem wp_update (hit : m.it.Faithful) (ht : m.thresholds.Valid) (hpassive : m.Passive (visits i))
    {quality : NetworkQuality} {h : Handled} (hfresh : s.Fresh i) (htr : s.traces i = tr)
    (hh : tr.handled = some (quality, .ok h)) :
    (m.update (m.key (visits i)) (h.linkRtt none)).wp ((m.contract visits).pact i)
      (fun r t => r = .ok () ∧ t.traces i = tr) s := by
  have hretry := @Watch.Volatile.wp_retry _ _ _ _ m.applySample none (i, h.linkRtt none)
    (s.cells (m.key (visits i))) 4 fun hi => hfresh _ (.inl ⟨_, hi⟩)
  have hprog : updateState m.it m.thresholds (h.linkRtt none) =
      Watch.retry (m.applySample (i, h.linkRtt none)) 4 := rounds_eq _ 4
  rw [update, hprog]
  refine Prog.wp_mono (fun r t hr => ?_) (Prog.wp_interpret
    (fun s : World => s.cells (m.key (visits i))) (fun s => s.traces i = tr)
    (fun t ht => ht.kept _) (fun c s K htr hK => ?_) hretry htr)
  · cases r with
    | ok u => exact ⟨rfl, hr.2⟩
    | error e =>
      obtain ⟨x, -, hx⟩ := hr.1 e rfl
      exact absurd hx (not_raises hit ht _ x)
  · refine Prog.wp_issue ?_
    rintro r s' ⟨ch, -, hs, he⟩
    have hsample : (s.traces i).sample = h.linkRtt none := by
      rw [htr, Trace.sample, hh]
    cases ch with
    | redis ch =>
      obtain ⟨⟨r', v⟩, hv, heq⟩ := Option.map_eq_some_iff.mp he
      cases heq
      rw [hsample] at hv
      obtain ⟨hkept, hG, hk⟩ := hK r' v ⟨ch, hs.kept _, hv⟩
      have hcommits : ∀ c ∈ v.commits, m.Sourced visits (m.key (visits i)) s c := by
        intro c hc
        by_cases hci : c = (i, h.linkRtt none)
        · subst hci
          exact ⟨rfl, hpassive, quality, h, htr ▸ hh, rfl⟩
        · exact hs.cells _ c ((hG c hci).mem hc)
      obtain ⟨hs', hrely⟩ := hs.setCell (p := fun j => i ≠ j) hkept hcommits
        fun j hij x => hG (j, x) fun heq => hij (congrArg Prod.fst heq).symm
      refine ⟨hs', hrely, fun t ht hst => hk t ht ?_ (hst.trace.trans htr)⟩
      have hcell := hst.cells (m.key (visits i)) (h.linkRtt none)
      rwa [World.setCell_self] at hcell
    | handled => cases he
    | done => cases he

theorem wp_finish {v : Visit} {quality : NetworkQuality} {rtt : Option Binary64} {h : Handled}
    (htr : s.traces i = tr) (hlogged : tr.logged = []) (hcounted : tr.counted = []) :
    (m.finish v quality rtt h).wp ((m.contract visits).pact i)
      (fun r t => r = .ok (.answered (m.stamp quality rtt h)) ∧
        t.traces i = { tr with
          logged := (h.requestLogRecord.map h.logRow).toList
          counted := [labels v quality h] } ∧ (s.Fresh i → t.Fresh i)) s := by
  have hseen : ∀ (f : Trace → Trace) (s : World), (f (s.traces i)).seen = (s.traces i).seen →
      (f (s.traces i)).handled = (s.traces i).handled → m.Sound visits s →
      m.Sound visits (s.note i f) ∧ ∀ j, i ≠ j → Rely j s (s.note i f) := by
    intro f s hf hf' hs
    refine hs.note (.inr hf') fun cs hcs => ?_
    rw [hf] at hcs
    exact ⟨hs.seen i cs hcs, World.known_of_seen hcs⟩
  have hlog : (logRequest h).wp ((m.contract visits).pact i)
      (fun r t => r = .ok () ∧ t.traces i = { tr with
        logged := (h.requestLogRecord.map h.logRow).toList } ∧ (s.Fresh i → t.Fresh i)) s := by
    unfold logRequest
    cases h.requestLogRecord with
    | none =>
      refine ⟨rfl, ?_, id⟩
      rw [htr, Option.map_none, Option.toList_none, ← hlogged]
    | some record =>
      refine wp_note (f := fun _ tr => { tr with logged := tr.logged ++ [h.logRow record] }) ?_
        (fun _ => hseen _ s rfl rfl) fun _ t hst => ?_
      · intro ch s r s' he
        cases ch <;> cases he
        exact ⟨(), rfl, rfl⟩
      · refine ⟨rfl, ?_, fun hfresh => hfresh.note (fun _ => World.known_of_seen) hst⟩
        rw [hst.trace, World.note_self, htr, hlogged]
        rfl
  refine Prog.wp_seq hlog (fun e t ht => by cases ht.1) fun _ t ht => ?_
  obtain ⟨-, htrace, hfresh⟩ := ht
  refine Prog.wp_seq (L := fun r u => r = .ok () ∧ u.traces i = { tr with
      logged := (h.requestLogRecord.map h.logRow).toList
      counted := [labels v quality h] } ∧ (s.Fresh i → u.Fresh i))
    (wp_note (f := fun _ tr => { tr with counted := tr.counted ++ [labels v quality h] }) ?_
      (fun _ => hseen _ t rfl rfl) fun _ u hst => ?_) (fun e u hu => by cases hu.1) fun _ u hu => ?_
  · intro ch s r s' he
    cases ch <;> cases he
    exact ⟨(), rfl, rfl⟩
  · refine ⟨rfl, ?_, fun hf => (hfresh hf).note (fun _ => World.known_of_seen) hst⟩
    rw [hst.trace, World.note_self, htrace, hcounted]
    rfl
  · exact ⟨rfl, hu.2⟩

theorem Concluded.of_raised {quality : NetworkQuality} {e : Exc}
    (hh : (s.traces i).handled = some (quality, .error e))
    (hquality : quality = m.assigned (visits i) (s.traces i)) (hfresh : s.Fresh i) :
    m.Concluded visits i (.raised e) s where
  handled := ⟨.error e, hquality ▸ hh⟩
  raised e' := by
    rw [hh]
    constructor
    · rintro ⟨⟩
      exact ⟨quality, rfl⟩
    · rintro ⟨_, heq⟩
      cases heq
      rfl
  skipped _ _ _ h := by
    rw [hh] at h
    cases h
  answered _ _ _ h := by
    rw [hh] at h
    cases h
  traceless _ := hfresh

theorem Concluded.of_answered {quality : NetworkQuality} {h : Handled} {r : Response}
    (hh : (s.traces i).handled = some (quality, .ok h))
    (hquality : quality = m.assigned (visits i) (s.traces i))
    (hskipped : SKIP_PATHS.contains (visits i).path = true → r = h.response)
    (hadapted : SKIP_PATHS.contains (visits i).path = false →
      r = m.stamp quality (m.declaredRtt (visits i)) h ∧
        (s.traces i).logged = (h.requestLogRecord.map h.logRow).toList ∧
        (s.traces i).counted = [labels (visits i) quality h])
    (hfresh : ¬m.Passive (visits i) → s.Fresh i) : m.Concluded visits i (.answered r) s where
  handled := ⟨.ok h, hquality ▸ hh⟩
  raised e := by
    rw [hh]
    constructor
    · intro heq
      cases heq
    · rintro ⟨_, heq⟩
      cases heq
  skipped _ _ hskip heq := by
    rw [hh] at heq
    cases heq
    rw [hskipped hskip]
  answered _ _ hskip heq := by
    rw [hh] at heq
    cases heq
    obtain ⟨hr, hlogged, hcounted⟩ := hadapted hskip
    exact ⟨congrArg _ hr, hlogged, hcounted⟩
  traceless := by
    rintro (hnot | ⟨e, heq⟩)
    · exact hfresh hnot
    · cases heq

theorem wp_dispatch (hit : m.it.Faithful) (ht : m.thresholds.Valid) (hfresh : s.Fresh i)
    (htr : s.traces i = {}) :
    (m.dispatch (visits i)).wp ((m.contract visits).pact i) ((m.contract visits).Q i) s := by
  have hnever : ∀ {α : Type} {a : α} {e : Fault StateExc}, (Except.error e : Except _ α) ≠ .ok a :=
    fun h => by cases h
  unfold dispatch
  by_cases hskip : SKIP_PATHS.contains (visits i).path = true
  · rw [if_pos hskip]
    refine Prog.wp_seq (wp_next .good hfresh htr) (fun e t ⟨_, ho, _⟩ => absurd ho hnever) ?_
    rintro o t ⟨_, ⟨⟩, hfresh, htrace⟩
    have hquality : .good = m.assigned (visits i) (t.traces i) := by rw [assigned, if_pos hskip]
    cases o with
    | error e => exact ⟨_, rfl, .of_raised (by rw [htrace]) hquality hfresh⟩
    | ok h =>
      refine ⟨_, rfl, .of_answered (by rw [htrace]) hquality (fun _ => rfl) (fun hnot => ?_)
        fun _ => hfresh⟩
      rw [hskip] at hnot
      cases hnot
  · rw [if_neg hskip]
    obtain ⟨x, hx⟩ : ∃ x, m.explicit (visits i) = .ok x := ⟨_, explicitSignal_eq⟩
    rw [hx]
    cases x with
    | some hint =>
      obtain ⟨quality, explicitRtt⟩ := hint
      have hquality : ∀ tr, quality = m.assigned (visits i) tr := fun tr => by
        rw [assigned, if_neg hskip, hx]
      have hrtt : m.declaredRtt (visits i) = explicitRtt := by rw [declaredRtt, hx]
      refine Prog.wp_seq (wp_next quality hfresh htr) (fun e t ⟨_, ho, _⟩ => absurd ho hnever) ?_
      rintro o t ⟨_, ⟨⟩, hfresh, htrace⟩
      cases o with
      | error e => exact ⟨_, rfl, .of_raised (by rw [htrace]) (hquality _) hfresh⟩
      | ok h =>
        refine Prog.wp_mono (fun r u hr => ?_) (wp_finish htrace rfl rfl)
        obtain ⟨rfl, htrace', hfresh'⟩ := hr
        refine ⟨_, rfl, .of_answered (h := h) (by rw [htrace']) (hquality _)
          (fun h => absurd h hskip) (fun _ => ?_) fun _ => hfresh' hfresh⟩
        rw [htrace', hrtt]
        exact ⟨rfl, rfl, rfl⟩
    | none =>
      have hpassive : m.Passive (visits i) := ⟨Bool.eq_false_iff.mpr hskip, hx⟩
      have hquality : ∀ tr, (m.found tr).tier.quality = m.assigned (visits i) tr := fun tr => by
        rw [assigned, if_neg hskip, hx]
      have hrtt : m.declaredRtt (visits i) = none := by rw [declaredRtt, hx]
      refine Prog.wp_seq (wp_loadState hit ht hfresh htr)
        (fun e t ⟨_, _, ho, _⟩ => absurd ho hnever) ?_
      rintro st t ⟨sn, htrace, hst, hfresh⟩
      obtain rfl := Except.ok.inj hst
      rw [htrace]
      refine Prog.wp_seq (wp_next _ hfresh htrace) (fun e t ⟨_, ho, _⟩ => absurd ho hnever) ?_
      rintro o u ⟨_, ⟨⟩, hfresh, htrace⟩
      cases o with
      | error e =>
        exact ⟨_, rfl, .of_raised (by rw [htrace]) (by rw [htrace, ← hquality]; rfl) hfresh⟩
      | ok h =>
        refine Prog.wp_seq (wp_update hit ht hpassive hfresh htrace rfl)
          (fun e t ⟨ho, _⟩ => absurd ho hnever) ?_
        rintro _ u' ⟨-, htrace⟩
        refine Prog.wp_mono (fun r w hr => ?_) (wp_finish htrace rfl rfl)
        obtain ⟨rfl, htrace', -⟩ := hr
        refine ⟨_, rfl, .of_answered (h := h) (by rw [htrace']) (by rw [htrace', ← hquality]; rfl)
          (fun h => absurd h hskip) (fun _ => ?_) fun hnot => absurd hpassive hnot⟩
        rw [htrace', hrtt]
        exact ⟨rfl, rfl, rfl⟩

end Middleware

/-! ## Whole runs -/

/-- However the requests of any clients interleave, and whatever Redis does, the detector adds
no failure of its own.  A request is given the tier that it declares, and otherwise that of a
state which consists of the samples of other requests of the same client; it is answered with
that tier, and counted and logged once.  Redis holds a state that can be read and has in it
each sample once, all of them from answered requests of the client that declared nothing. -/
theorem dispatch_runs (m : Middleware) (visits : Nat → Visit) (hit : m.it.Faithful)
    (ht : m.thresholds.Valid) {q : Pool Nat Cmd Ans (Fault StateExc) Outcome World}
    (hq : (middleware m visits).Reach Guard.any ((middleware m visits).start {}) q) :
    (∀ i r, q.prog i = some (Prog.ofExcept r) →
      ∃ outcome, r = .ok outcome ∧ m.Concluded visits i outcome q.state) ∧
    (∀ i cs, (q.state.traces i).seen = some cs → m.Recorded visits q.state i cs) ∧
    ∀ key, decodeState m.it (q.state.cells key).value =
        .ok (m.estimate (q.state.cells key).commits) ∧
      ((q.state.cells key).commits.map Prod.fst).Nodup ∧
      ∀ c ∈ (q.state.cells key).commits, m.Sourced visits key q.state c := by
  have hfresh : ∀ i, ({} : World).Fresh i := by
    rintro i x (⟨key, hc⟩ | ⟨j, cs, hcs, -⟩)
    · cases hc
    · cases hcs
  obtain ⟨hs, hkept⟩ := (m.contract visits).sound Middleware.sound_start
    (fun i t _ hst => Middleware.wp_dispatch hit ht ((hfresh i).mono hst) hst.trace)
    (fun _ _ _ _ h => by cases h) hq
  refine ⟨fun i r hr => ?_, hs.seen, fun key => ⟨hs.decodes hit ht key, hs.commits_nodup key,
    hs.cells key⟩⟩
  have hend := hkept i _ hr q.state hs (Rely.refl i _)
  cases r <;> exact hend

/-! ## One request of a new client -/

noncomputable def mockMiddleware : Middleware where
  it := mockInterpreter
  thresholds := crisp
  ip := ipv4
  trustedProxies := []
  fixed1 _ := []

def mockVisit : Visit := ⟨"GET", "/proxy/fixture/items", some "192.0.2.7", []⟩

def mockHandled : Handled where
  response := ⟨200, [], []⟩
  elapsedMs := ms 800

noncomputable def mockMachine := middleware mockMiddleware fun _ => mockVisit

theorem mock_commits : ((mockMachine.run (mockMachine.start {})
    [.act 0 (.redis .up), .act 0 (.handled (.ok mockHandled)), .act 0 (.redis .up),
      .act 0 (.redis .up), .act 0 (.redis .up), .act 0 .done]).map
    fun q => (q.state.cells (mockMiddleware.key mockVisit)).commits) = some [(0, ms 800)] := by
  decide +kernel

theorem dispatch_runs_mock : ∃ q, mockMachine.Reach Guard.any (mockMachine.start {}) q ∧
    (q.state.cells (mockMiddleware.key mockVisit)).commits = [(0, ms 800)] ∧
    decodeState mockInterpreter (q.state.cells (mockMiddleware.key mockVisit)).value =
      .ok (advance {} (ms 800) crisp) := by
  obtain ⟨q, hrun, hcommits⟩ := Option.map_eq_some_iff.mp mock_commits
  have hq := Machine.reach_of_run hrun
  have hdecode := ((dispatch_runs mockMiddleware (fun _ => mockVisit) mockInterpreter_faithful
    crisp_valid hq).2.2 (mockMiddleware.key mockVisit)).1
  rw [hcommits] at hdecode
  exact ⟨q, hq, hcommits, hdecode⟩

end Detector
end AdaptiveGateway
