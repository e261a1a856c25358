/-
The revalidation of a stale page, command by command.

A read that finds a stale entry draws a token and tries to set the lock of its key.
The one that succeeds starts the refresh, which asks the upstream, stores what may
be stored, and then gives the lock back.  The automaton below keeps what the reads
and their refreshes do about locks, jobs and the upstream; what a read does besides
leaves it at its stage.
-/
import AdaptiveGateway.Proxy.Cache

namespace AdaptiveGateway
namespace Proxy
namespace Cache

open Codec Concurrent

/-! ## The automaton -/

/-- How far a thread has got. -/
inductive Stage where
  /-- Nothing has been drawn, or no job has been taken. -/
  | idle
  | drawn (t : Token)
  /-- The lock has been set, and no refresh has been started. -/
  | won (t : Token)
  /-- The request is in flight. -/
  | flying (job : RefreshJob)
  /-- The upstream has replied, with something that may be stored or not. -/
  | replied (job : RefreshJob) (fit : Bool)
  | done

/-- The reply is a response of admissible size that the gateway may store. -/
def fitReply (cfg : Config) : Except Exc UpstreamAnswer → Bool
  | .ok a =>
    match boundedResponse cfg a with
    | .ok resp => responseCacheable resp
    | .error _ => false
  | .error _ => false

/-- The lifetime of the lock, in seconds. -/
def GetCall.lockTtl (cfg : Config) (g : GetCall) : Nat :=
  max cfg.settings.revalidateLockTtlSeconds (g.timeout cfg / 1000000 + 5)

/-- The commands that have nothing to do with locks and jobs. -/
def Plain : Cmd ⊕ Call → Prop
  | .inl .time | .inl (.get _) | .inl (.set _ _ _) | .inr _ => True
  | _ => False

namespace Stage

def handlerAllows (cfg : Config) (lib : Libraries) (g : GetCall) : Stage → Cmd ⊕ Call → Prop
  | idle, .inl .tokenHex => True
  | idle, c | done, c => Plain c
  | drawn t, .inl (.setNx name t' ttl) =>
    name = lockName (g.key lib) ∧ t' = t ∧ ttl = g.lockTtl cfg
  | won t, .inl (.spawn job) => job.key = g.key lib ∧ job.lockToken = t
  | _, _ => False

def refreshAllows : Stage → Cmd ⊕ Call → Prop
  | idle, .inl .job => True
  | flying _, .inr _ => True
  | replied _ fit, .inl .time | replied _ fit, .inl (.set _ _ _) => fit = true
  | replied job _, .inl (.getDel name t) => name = lockName job.key ∧ t = job.lockToken
  | _, _ => False

def next (cfg : Config) : Stage → (c : Cmd ⊕ Call) → Except Exc (Sum.elim Ans Call.Ans c) → Stage
  | idle, .inl .tokenHex, .ok t => drawn t
  | idle, .inl .job, .ok job => flying job
  | drawn t, .inl (.setNx _ _ _), .ok true => won t
  | drawn _, .inl (.setNx _ _ _), _ => done
  | won _, .inl (.spawn _), _ => done
  | flying job, .inr _, r => replied job (fitReply cfg r)
  | replied _ _, .inl (.getDel _ _), _ => done
  | stage, _, _ => stage

end Stage

section Automaton

variable (cfg : Config) (lib : Libraries) (gets : Nat → GetCall)

def allowsAt : Thread → Stage → Cmd ⊕ Call → Prop
  | .handler n => Stage.handlerAllows cfg lib (gets n)
  | .refresh _ => Stage.refreshAllows

/-- A phase is a thread with its stage. -/
def flightProtocol : Prog.Protocol (Cmd ⊕ Call) (Sum.elim Ans Call.Ans) Exc where
  Phase := Thread × Stage
  allows f := allowsAt cfg lib gets f.1 f.2
  next f c r := (f.1, f.2.next cfg c r)

end Automaton

/-! ## The tasks follow it -/

section Follows

variable {cfg : Config} {lib : Libraries} {gets : Nat → GetCall} {i : Thread} {n : Nat}

theorem catchRedis_issues {α : Type} {S : Cmd ⊕ Call → Prop} {p : ReadTask α} {a : α}
    (hp : p.Issues S) : (catchRedis p a).Issues S := by
  refine hp.except fun e q hq => ?_
  split at hq <;> cases hq
  trivial

theorem storeIf_issues {S : Cmd ⊕ Call → Prop} (htime : S (.inl .time))
    (hset : ∀ key value ttl, S (.inl (.set key value ttl))) (fit : Bool) (key : Text)
    (freshFor : Nat) (resp : UpstreamResponse) : (storeIf fit lib key freshFor resp).Issues S := by
  unfold storeIf
  split
  next =>
    refine Prog.Issues.bind (Prog.Issues.issue htime) fun now => ?_
    exact catchRedis_issues (Prog.Issues.issue (hset _ _ _))
  next => trivial

theorem serve_plain (entry : CachedResponse) (status : CacheStatus) :
    (serve entry status).Issues Plain := by
  refine Prog.Issues.bind (Prog.Issues.issue (S := Plain) trivial) fun now => ?_
  exact Prog.Issues.bind (Prog.Issues.ofExcept _) fun response => trivial

theorem lookup_plain (g : GetCall) : (lookup lib g).Issues Plain := by
  unfold lookup
  split
  next =>
    refine Prog.Issues.bind
      (catchRedis_issues (Prog.Issues.issue (S := Plain) trivial)) fun raw => ?_
    cases raw with
    | none => trivial
    | some raw =>
      cases hentry : lib.modelValidateJson raw with
      | none =>
        simp only [hentry]
        trivial
      | some entry =>
        simp only [hentry]
        cases entry.body with
        | error e => trivial
        | ok body =>
          exact Prog.Issues.bind (Prog.Issues.issue (S := Plain) trivial) fun _ => trivial
  next => trivial

theorem fetch_plain (g : GetCall) : (fetch cfg lib g).Issues Plain := by
  refine Prog.Issues.bind (Prog.Issues.except ?_ fun e q hq => ?_) fun fetched => ?_
  · exact Prog.Issues.bind (callUpstream_issues (S := Plain) trivial) fun resp => trivial
  · split at hq <;> cases hq
    trivial
  · cases fetched with
    | none => exact Prog.Issues.bind (Prog.Issues.ofExcept _) fun response => trivial
    | some resp =>
      refine Prog.Issues.bind (storeIf_issues (S := Plain) trivial (fun _ _ _ => trivial) _ _ _ _)
        fun _ => ?_
      exact Prog.Issues.bind (Prog.Issues.ofExcept _) fun response => trivial

/-- What has nothing to do with locks leaves a handler where it is. -/
theorem plain_stays {α : Type} {p : ReadTask α} {stage : Stage}
    (hstage : stage = .idle ∨ stage = .done) (hp : p.Issues Plain) :
    p.Follows (flightProtocol cfg lib gets) (.handler n, stage)
      fun _ f => f = (.handler n, stage) := by
  refine hp.follows fun c hc => ?_
  rcases hstage with rfl | rfl
  · cases c with
    | inl c => cases c <;> first | exact ⟨hc, fun _ => rfl⟩ | cases hc
    | inr req => exact ⟨hc, fun _ => rfl⟩
  · cases c with
    | inl c => cases c <;> exact ⟨hc, fun _ => rfl⟩
    | inr req => exact ⟨hc, fun _ => rfl⟩

theorem acquireLock_stages :
    (acquireLock (lockName ((gets n).key lib)) ((gets n).lockTtl cfg)).Follows
      (flightProtocol cfg lib gets) (.handler n, .idle) fun r f => match r with
        | .ok (some t) => f = (.handler n, .won t)
        | .ok none => f = (.handler n, .done)
        | .error _ => True := by
  refine Prog.Follows.bind (Q := fun r f => ∀ t, r = .ok t → f = (.handler n, .drawn t))
    (Prog.Follows.issue trivial ?_) (fun _ _ _ => trivial) fun t f hf => ?_
  · rintro _ t rfl
    rfl
  · rw [hf t rfl]
    refine Prog.Follows.except (Q := fun r f => match r with
        | .ok (some t) => f = (.handler n, .won t)
        | .ok none | .error _ => f = (.handler n, .done)) ?_ ?_ ?_
    · refine Prog.Follows.bind (Q := fun r f => f = (.handler n, Stage.next cfg (.drawn t)
          (.inl (.setNx (lockName ((gets n).key lib)) t ((gets n).lockTtl cfg))) r))
        (Prog.Follows.issue ⟨rfl, rfl, rfl⟩ fun _ => rfl) (fun _ _ h => h) ?_
      rintro (_ | _) _ rfl <;> rfl
    · intro a f h
      cases a <;> exact h
    · intro e f h
      by_cases he : e = .redisError
      · subst he
        exact h
      · rw [if_neg he]
        trivial

theorem revalidate_stages :
    (revalidate cfg lib (gets n)).Follows (flightProtocol cfg lib gets) (.handler n, .idle)
      fun r f => r = .ok () → f = (.handler n, .done) := by
  refine acquireLock_stages.bind (fun _ _ _ h => by cases h) fun t f hf => ?_
  cases t with
  | none => exact fun _ => hf
  | some t =>
    rw [show f = (.handler n, .won t) from hf]
    exact Prog.Follows.issue ⟨rfl, rfl⟩ fun _ _ => rfl

theorem handleGet_stages :
    (handleGet cfg lib (gets n)).Follows (flightProtocol cfg lib gets) (.handler n, .idle)
      fun _ _ => True := by
  refine (plain_stays (Or.inl rfl) (lookup_plain (gets n))).bind (fun _ _ _ => trivial) ?_
  rintro ⟨status, entry⟩ _ rfl
  have hmiss : (fetch cfg lib (gets n)).Follows (flightProtocol cfg lib gets) (.handler n, .idle)
      fun _ _ => True :=
    (plain_stays (Or.inl rfl) (fetch_plain (gets n))).mono fun _ _ _ => trivial
  have hserve : ∀ {stage : Stage} (e : CachedResponse) (status : CacheStatus),
      stage = .idle ∨ stage = .done →
      (serve e status).Follows (flightProtocol cfg lib gets) (.handler n, stage)
        fun _ _ => True :=
    fun e status hstage => (plain_stays hstage (serve_plain e status)).mono fun _ _ _ => trivial
  cases entry with
  | none => cases status <;> exact hmiss
  | some e =>
    cases status with
    | miss => exact hmiss
    | hit => exact hserve e .hit (Or.inl rfl)
    | stale =>
      refine revalidate_stages.bind (fun _ _ _ => trivial) fun _ f hf => ?_
      rw [hf rfl]
      exact hserve e .stale (Or.inr rfl)

/-- The answer decides whether there is something to store. -/
theorem callUpstream_stages (job : RefreshJob) (req : Call) :
    (callUpstream cfg req : ReadTask UpstreamResponse).Follows (flightProtocol cfg lib gets)
      (.refresh n, .flying job) fun r f => ∃ fit, f = (.refresh n, .replied job fit) ∧
        ∀ up, r = .ok up → fit = responseCacheable up := by
  have hanswer : (do
      let a : UpstreamAnswer ← Prog.issue (Sum.inr req : Cmd ⊕ Call)
      Prog.ofExcept (boundedResponse cfg a) : ReadTask UpstreamResponse).Follows
      (flightProtocol cfg lib gets) (.refresh n, .flying job) fun r f =>
        ∃ fit, f = (.refresh n, .replied job fit) ∧
          ∀ up, r = .ok up → fit = responseCacheable up := by
    refine Prog.Follows.bind (Q := fun r f => f = (.refresh n, .replied job (fitReply cfg r)))
      (Prog.Follows.issue trivial fun _ => rfl) ?_ ?_
    · rintro e _ rfl
      exact ⟨_, rfl, fun _ h => by cases h⟩
    · rintro a _ rfl
      have hfit : ∀ up, boundedResponse cfg a = .ok up →
          fitReply cfg (.ok a) = responseCacheable up := fun up hup => by simp only [fitReply, hup]
      cases hup : boundedResponse cfg a with
      | error e => exact ⟨_, rfl, fun _ h => by cases h⟩
      | ok up =>
        refine ⟨_, rfl, ?_⟩
        rintro _ ⟨⟩
        exact hfit up hup
  refine hanswer.except (fun _ _ h => h) fun e f h => ?_
  obtain ⟨fit, hf, -⟩ := h
  split <;> exact ⟨fit, hf, fun _ h => by cases h⟩

theorem refreshCache_stages (job : RefreshJob) :
    (refreshCache cfg lib job).Follows (flightProtocol cfg lib gets) (.refresh n, .flying job)
      fun _ _ => True := by
  refine Prog.Follows.finally_
    (Q := fun _ f => ∃ fit, f = (.refresh n, .replied job fit)) ?_ ?_
  · refine Prog.Follows.except (Q := fun _ f => ∃ fit, f = (.refresh n, .replied job fit))
      ((callUpstream_stages job _).bind ?_ ?_) (fun _ _ h => h) ?_
    · rintro e f ⟨fit, hf, -⟩
      exact ⟨fit, hf⟩
    · rintro up f ⟨fit, rfl, hup⟩
      rw [← hup up rfl]
      cases fit with
      | false => exact ⟨false, rfl⟩
      | true =>
        -- Both commands of the store stay in the phase that permits them.
        refine ((storeIf_issues (S := fun c => c = .inl .time ∨ ∃ key value ttl,
          c = .inl (.set key value ttl)) (Or.inl rfl) (fun _ _ _ => Or.inr ⟨_, _, _, rfl⟩)
          true job.key job.freshFor up).follows ?_).mono fun _ _ h => ⟨true, h⟩
        rintro _ (rfl | ⟨key, value, ttl, rfl⟩)
        · exact ⟨rfl, fun _ => rfl⟩
        · exact ⟨rfl, fun _ => rfl⟩
    · rintro e f h
      split <;> exact h
  · rintro r _ ⟨fit, rfl⟩
    refine Prog.Follows.except (Q := fun _ _ => True)
      (Prog.Follows.issue ⟨rfl, rfl⟩ fun _ => trivial) (fun _ _ _ => trivial) fun e f _ => ?_
    split <;> trivial

theorem boot_stages (i : Thread) :
    (boot cfg lib gets i).Follows (flightProtocol cfg lib gets) (i, .idle) fun _ _ => True := by
  cases i with
  | handler n => exact handleGet_stages.bind (fun _ _ _ => trivial) fun _ _ _ => trivial
  | refresh n =>
    refine Prog.Follows.bind (Q := fun r f => ∀ job, r = .ok job → f = (.refresh n, .flying job))
      (Prog.Follows.issue trivial ?_) (fun _ _ _ => trivial) fun job f hf => ?_
    · rintro _ job rfl
      rfl
    · rw [hf job rfl]
      exact (refreshCache_stages job).bind (fun _ _ _ => trivial) fun _ _ _ => trivial

end Follows

end Cache
end Proxy
end AdaptiveGateway
