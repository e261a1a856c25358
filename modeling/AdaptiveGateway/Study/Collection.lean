/-
The collection of a study.

The blocks of the schedule are measured one after the other, and each of them in a warmup
and a measured phase.  Inside of a phase the workers interleave at the points where they
wait for a response.  A `Run` is a collection at any moment; `written` are the rows in the
raw file.

A collection that is cut off by an error does not complete, and is not followed here.
-/
import AdaptiveGateway.Concurrent.Jobs
import AdaptiveGateway.Study.Analysis
import AdaptiveGateway.Study.Contract
import Mathlib.Data.Char

namespace AdaptiveGateway
namespace Study

open Codec Python Numeric Concurrent

/-! ## The plan -/

/-- `random.Random(seed).shuffle` -/
structure Shuffle where
  shuffle : ℤ → List Text → List Text
  perm : ∀ seed names, (shuffle seed names).Perm names

/-- The arguments that the plan depends on.  `modes` are the keys of the mapping that
`validate_args` returns. -/
structure Args where
  modes : List Text
  condition : Text
  trials : Nat
  requests : Nat
  concurrency : Nat
  warmup : Nat
  seed : ℤ

def FIXED_MODES : List Text := ["full", "compression", "removal", "combined"]

structure Args.Valid (args : Args) : Prop where
  trials : 1 ≤ args.trials
  requests : 1 ≤ args.requests
  concurrency : 1 ≤ args.concurrency
  nodup : args.modes.Nodup
  known : ∀ mode ∈ args.modes, mode ∈ FIXED_MODES ∨ mode = ("adaptive" : Text)
  fixed : ∀ mode ∈ FIXED_MODES, mode ∈ args.modes

/-- `f"{n:0{width}d}"` -/
def zfill (width n : Nat) : Text :=
  List.replicate (width - (Nat.toDigits 10 n).length) '0' ++ Nat.toDigits 10 n

def trialId (trial : Nat) : Text := "trial_".toList ++ zfill 3 trial

structure PlannedBlock where
  trialId : Text
  position : Nat
  mode : Text

def rotated (initial : List Text) (trial : Nat) : List Text :=
  initial.drop (trial % initial.length) ++ initial.take (trial % initial.length)

section

variable (rng : Shuffle) (lib : Decoders) (args : Args)

def schedule (trials : Nat) (modes : List Text) (seed : ℤ) : List PlannedBlock :=
  let initial := rng.shuffle seed (sortedBy id modes)
  (List.range trials).flatMap fun trial =>
    (rotated initial trial).zipIdx.map fun e => ⟨trialId (trial + 1), e.2 + 1, e.1⟩

def plan : List PlannedBlock := schedule rng args.trials args.modes args.seed

/-- `make_manifest`, for what `load_study` reads. -/
def makeManifest : Manifest where
  status := "running"
  rawSha256 := none
  condition := .ofText args.condition
  schedule := (plan rng args).map fun b => ⟨.ofText b.trialId, b.position, .ofText b.mode⟩
  warmupRequests := args.warmup
  requestsPerBlock := args.requests

/-! ## Collecting -/

/-- One call of `measure_block`. -/
structure Phase where
  block : PlannedBlock
  phase : Text
  count : Nat

def planPhases : List Phase := (plan rng args).flatMap fun b =>
  [⟨b, "warmup", args.warmup⟩, ⟨b, "measured", args.requests⟩]

def Phase.request (p : Phase) (id : Nat) : Request :=
  ⟨p.block.trialId, args.condition, p.block.mode, p.phase, id⟩

/-- What comes of a request: the readings of the clock and the outcome. -/
abbrev Observed := Clock × Outcome

/-- `calls` are the requests of the phases that have ended. -/
structure Run where
  phases : List Phase
  jobs : Jobs Observed
  calls : List Request
  written : List Row

/-- The workers of the next phase. -/
def enter : List Phase → Jobs Observed
  | [] => .start 0
  | p :: _ => .start (min p.count args.concurrency)

def Run.start : Run :=
  ⟨planPhases rng args, enter args (planPhases rng args), [], []⟩

/-- `sorted(results, key=lambda row: row["request_id"])` -/
def Phase.rows (p : Phase) (results : List (Nat × Observed)) : List Row :=
  sortedBy (fun row => number row "request_id")
    (results.map fun r => measureRequest lib (p.request args r.1) r.2.1 r.2.2)

inductive Run.Step : Run → Run → Prop
  | work {r : Run} {p : Phase} {ps : List Phase} {jobs : Jobs Observed} (h : r.phases = p :: ps)
      (hjobs : Jobs.Step p.count r.jobs jobs) : Step r { r with jobs := jobs }
  | leave {r : Run} {p : Phase} {ps : List Phase} (h : r.phases = p :: ps)
      (hfinished : r.jobs.Finished) : Step r
        { phases := ps
          jobs := enter args ps
          calls := r.calls ++ r.jobs.taken.map (p.request args)
          written := r.written ++ p.rows lib args r.jobs.results }

def Run.Reach : Run → Prop :=
  Relation.ReflTransGen (Run.Step lib args) (Run.start rng args)

/-- Every call of `measure_request` so far. -/
def Run.called (r : Run) : List Request :=
  r.calls ++ match r.phases with
    | [] => []
    | p :: _ => r.jobs.taken.map (p.request args)

def Run.Completed (r : Run) : Prop := r.phases = []

end

/-! ## The schedule -/

theorem ofDigitChars_zeros (k : Nat) (t : Text) :
    Nat.ofDigitChars 10 (List.replicate k '0' ++ t) 0 = Nat.ofDigitChars 10 t 0 := by
  induction k with
  | zero => rfl
  | succ k ih => exact ih

/-- No two numbers are written alike. -/
theorem zfill_injective {width m n : Nat} (h : zfill width m = zfill width n) : m = n := by
  have hvalue : ∀ k, Nat.ofDigitChars 10 (zfill width k) 0 = k := fun k => by
    rw [zfill, ofDigitChars_zeros]
    exact Nat.ofDigitChars_ten_toDigits
  rw [← hvalue m, h, hvalue n]

theorem trialId_injective {m n : Nat} (h : trialId m = trialId n) : m = n :=
  zfill_injective (List.append_cancel_left h)

theorem rotated_perm (initial : List Text) (trial : Nat) : (rotated initial trial).Perm initial := by
  rw [rotated]
  refine List.perm_append_comm.trans ?_
  rw [List.take_append_drop]

section

variable {rng : Shuffle} {lib : Decoders} {args : Args}

def PlannedBlock.key (b : PlannedBlock) : Text × Text := (b.trialId, b.mode)

theorem keys_plan : (plan rng args).map PlannedBlock.key =
    (List.range args.trials).flatMap fun trial =>
      (rotated (rng.shuffle args.seed (sortedBy id args.modes)) trial).map fun mode =>
        (trialId (trial + 1), mode) := by
  rw [plan, schedule, List.map_flatMap]
  refine congrArg (fun f => List.flatMap f _) (funext fun trial => ?_)
  rw [List.map_map]
  conv_rhs => rw [← List.zipIdx_map_fst 0 (rotated _ trial), List.map_map]
  rfl

/-- No mode comes twice in a trial, and no two trials have the same name. -/
theorem nodup_plan (hargs : args.Valid) : ((plan rng args).map PlannedBlock.key).Nodup := by
  have hinitial : (rng.shuffle args.seed (sortedBy id args.modes)).Nodup :=
    ((rng.perm _ _).trans (sortedBy_perm id args.modes)).nodup_iff.mpr hargs.nodup
  rw [keys_plan]
  refine List.nodup_flatMap.mpr ⟨fun trial _ => ?_, ?_⟩
  · exact ((rotated_perm _ trial).nodup_iff.mpr hinitial).map fun _ _ h => (Prod.mk.inj h).2
  · refine List.nodup_range.imp fun {trial trial'} hne key hkey hkey' => ?_
    obtain ⟨mode, -, rfl⟩ := List.mem_map.mp hkey
    obtain ⟨mode', -, heq⟩ := List.mem_map.mp hkey'
    have htrial := trialId_injective (Prod.mk.inj heq).1
    omega

theorem schedule_makeManifest : (makeManifest rng args).schedule =
    (plan rng args).map fun b => ⟨.ofText b.trialId, b.position, .ofText b.mode⟩ := rfl

theorem nodup_schedule (hargs : args.Valid) :
    ((makeManifest rng args).schedule.map Block.key).Nodup := by
  have hkeys : (makeManifest rng args).schedule.map Block.key =
      ((plan rng args).map PlannedBlock.key).map fun k => (Str.ofText k.1, Str.ofText k.2) := by
    rw [schedule_makeManifest, List.map_map, List.map_map]
    rfl
  rw [hkeys]
  refine (nodup_plan hargs).map fun k k' h => ?_
  obtain ⟨htrial, hmode⟩ := Prod.mk.inj h
  exact Prod.ext (Str.ofText_injective htrial) (Str.ofText_injective hmode)

/-! ## The phases -/

def Phase.requests (args : Args) (p : Phase) : List Request :=
  (List.range' 1 p.count).map (p.request args)

theorem identities_requests (p : Phase) : (p.requests args).map Request.identity =
    phaseIdentities (.ofText args.condition)
      ⟨.ofText p.block.trialId, p.block.position, .ofText p.block.mode⟩ (.ofText p.phase)
      p.count := by
  rw [Phase.requests, phaseIdentities, List.range'_eq_map_range, List.map_map, List.map_map]
  refine List.map_congr_left fun i _ => ?_
  have hid : ((1 + i : Nat) : ℤ) = (i : ℤ) + 1 := by omega
  simp only [Function.comp_apply, Phase.request, Request.identity, hid]

/-- The phases ask for what `load_study` expects, in the order in which it plans it. -/
theorem identities_planPhases :
    ((planPhases rng args).flatMap (Phase.requests args)).map Request.identity =
      planned (makeManifest rng args) := by
  rw [planPhases, planned, List.flatMap_assoc, List.map_flatMap, schedule_makeManifest,
    List.flatMap_map]
  refine congrArg (fun f => List.flatMap f _) (funext fun b => ?_)
  rw [List.flatMap_cons, List.flatMap_cons, List.flatMap_nil, List.append_nil, List.map_append,
    identities_requests, identities_requests]
  rfl

theorem number_requestId (req : Request) (clock : Clock) (o : Outcome) :
    number (measureRequest lib req clock o) "request_id" = req.requestId := by
  have hitem : item (measureRequest lib req clock o) "request_id" = .int req.requestId :=
    item_row (i := 5) rfl
  rw [number, hitem]
  rfl

/-- The row of a job that has ended. -/
def Phase.rowOf (lib : Decoders) (args : Args) (p : Phase) (r : Nat × Observed) : Row :=
  measureRequest lib (p.request args r.1) r.2.1 r.2.2

/-- The rows of a phase whose jobs have all ended come in the order of their numbers. -/
theorem identities_rows (p : Phase) {results : List (Nat × Observed)}
    (hjobs : (results.map Prod.fst).Perm (List.range' 1 p.count)) :
    (p.rows lib args results).map identity =
      (p.requests args).map fun q => q.identity.values := by
  have hperm : (p.rows lib args results).Perm (results.map (p.rowOf lib args)) :=
    sortedBy_perm _ _
  have hordered : (p.rows lib args results).Pairwise fun a b =>
      number a "request_id" ≤ number b "request_id" := sortedBy_pairwise _ _
  have hcomp := congrFun (congrFun (List.eq_map_comp_perm (p.rowOf lib args))
    (p.rows lib args results)) results
  obtain ⟨sorted, hrows, hsorted⟩ := hcomp.mpr hperm
  rw [hrows, List.pairwise_map] at hordered
  have hids : sorted.map Prod.fst = List.range' 1 p.count := by
    refine ((hsorted.map Prod.fst).trans hjobs).eq_of_pairwise
      (fun a b _ _ hab hba => Nat.le_antisymm hab hba) (List.pairwise_map.mpr ?_)
      ((List.pairwise_lt_range' 1).imp Nat.le_of_lt)
    refine hordered.imp fun {a b} hab => ?_
    rw [Phase.rowOf, Phase.rowOf, number_requestId, number_requestId] at hab
    exact_mod_cast hab
  rw [hrows, Phase.requests, ← hids, List.map_map, List.map_map, List.map_map]
  exact List.map_congr_left fun r _ => identity_measureRequest _ _ _ _

/-! ## Runs -/

variable (rng lib args) in
/-- What has been called and written is what the phases that have ended ask for. -/
structure Run.Inv (r : Run) : Prop where
  split : ∃ ended, ended ++ r.phases = planPhases rng args ∧
    r.calls = ended.flatMap (Phase.requests args) ∧
    r.written.map identity =
      (ended.flatMap (Phase.requests args)).map fun q => q.identity.values
  jobs : ∀ p ps, r.phases = p :: ps → r.jobs.Inv p.count (min p.count args.concurrency)
  idle : r.phases = [] → r.jobs = .start 0

theorem enter_inv (ps : List Phase) : (∀ p qs, ps = p :: qs →
    (enter args ps).Inv p.count (min p.count args.concurrency)) ∧
    (ps = [] → enter args ps = .start 0) := by
  cases ps with
  | nil => exact ⟨fun p qs h => (by cases h), fun _ => rfl⟩
  | cons p ps =>
    refine ⟨fun q qs h => ?_, fun h => (by cases h)⟩
    cases h
    exact Jobs.inv_start _ _

theorem Run.inv_start : (Run.start rng args).Inv rng args where
  split := ⟨[], rfl, rfl, rfl⟩
  jobs := (enter_inv _).1
  idle := (enter_inv _).2

/-- When the jobs of a phase have all been done, each of its requests has been called once. -/
theorem Run.Inv.finished {r : Run} {p : Phase} {ps : List Phase} (hargs : args.Valid)
    (h : r.Inv rng args) (hphases : r.phases = p :: ps) (hfinished : r.jobs.Finished) :
    r.jobs.taken = List.range' 1 p.count ∧
      (r.jobs.results.map Prod.fst).Perm (List.range' 1 p.count) := by
  have hconcurrency := hargs.concurrency
  exact (h.jobs p ps hphases).finished (fun hcount => by omega) hfinished

theorem Run.Inv.step {r r' : Run} (hargs : args.Valid) (h : r.Inv rng args)
    (hstep : Run.Step lib args r r') : r'.Inv rng args := by
  cases hstep with
  | @work p ps jobs hphases hjobs =>
    refine ⟨h.split, fun q qs heq => ?_, fun hnil => ?_⟩
    · rw [hphases] at heq
      cases heq
      exact (h.jobs p ps hphases).step hjobs
    · rw [hphases] at hnil
      cases hnil
  | @leave p ps hphases hfinished =>
    obtain ⟨htaken, hresults⟩ := h.finished hargs hphases hfinished
    obtain ⟨ended, hsplit, hcalls, hwritten⟩ := h.split
    refine ⟨⟨ended ++ [p], ?_, ?_, ?_⟩, (enter_inv ps).1, (enter_inv ps).2⟩
    · rw [hphases] at hsplit
      rw [List.append_assoc]
      exact hsplit
    · rw [hcalls, htaken, List.flatMap_append, List.flatMap_singleton]
      rfl
    · rw [List.map_append, hwritten, identities_rows p hresults, List.flatMap_append,
        List.flatMap_singleton, List.map_append]

theorem Run.Reach.inv {r : Run} (hargs : args.Valid) (h : Run.Reach rng lib args r) :
    r.Inv rng args := by
  induction h with
  | refl => exact Run.inv_start
  | tail _ hstep ih => exact ih.step hargs hstep

/-! ## The order of the rows -/

/-- Of two requests of one phase, the one with the smaller number comes first. -/
def Before (p q : Identity) : Prop :=
  p.trialId = q.trialId → p.mode = q.mode → p.phase = q.phase → p.requestId < q.requestId

theorem ordered_phaseIdentities (condition : Str) (b : Block) (phase : Str) (count : Nat) :
    (phaseIdentities condition b phase count).Pairwise Before := by
  refine List.pairwise_map.mpr (List.pairwise_lt_range.imp fun {i j} hij _ _ _ => ?_)
  show (i : ℤ) + 1 < j + 1
  omega

theorem ordered_planned {m : Manifest} (h : (m.schedule.map Block.key).Nodup) :
    (planned m).Pairwise Before := by
  refine List.pairwise_flatMap.mpr ⟨fun b _ => ?_, ?_⟩
  · refine List.pairwise_append.mpr ⟨ordered_phaseIdentities _ _ _ _,
      ordered_phaseIdentities _ _ _ _, fun p hp q hq _ _ hphase => ?_⟩
    obtain ⟨i, -, rfl⟩ := List.mem_map.mp hp
    obtain ⟨j, -, rfl⟩ := List.mem_map.mp hq
    exact absurd (show ("warmup" : Str) = "measured" from hphase) (by decide)
  · refine (List.pairwise_map.mp h).imp fun {b c} hne p hp q hq htrial hmode _ => ?_
    refine absurd ?_ hne
    rw [← mem_blockIdentities hp, ← mem_blockIdentities hq, htrial, hmode]

/-- The rows of one phase of a block stand in the order of their numbers. -/
def InOrder (rows : List Row) : Prop :=
  rows.Pairwise fun a b => ∀ p q : Identity, identity a = p.values → identity b = q.values →
    Before p q

theorem Run.Inv.ordered {r : Run} (hargs : args.Valid) (h : r.Inv rng args) :
    InOrder r.written := by
  obtain ⟨ended, hsplit, -, hwritten⟩ := h.split
  have hplanned : (planned (makeManifest rng args)).Pairwise Before :=
    ordered_planned (nodup_schedule hargs)
  rw [← identities_planPhases, ← hsplit, List.flatMap_append, List.map_append] at hplanned
  have hended := (List.pairwise_append.mp hplanned).1
  have hrows : (r.written.map identity).Pairwise fun x y => ∀ p q : Identity,
      x = p.values → y = q.values → Before p q := by
    rw [hwritten, List.pairwise_map]
    refine (List.pairwise_map.mp hended).imp fun {a b} hab p q hp hq => ?_
    rw [← Identity.values_injective hp, ← Identity.values_injective hq]
    exact hab
  exact List.pairwise_map.mp hrows

/-! ## The collection and its plan -/

/-- In every interleaving there are at most as many requests under way as the concurrency
allows, and the rows of a phase are written in the order of their numbers.  A collection
that is completed has called and written each planned request once, and its plan is what
`load_study` expects of the manifest. -/
theorem collection_matches_plan (hargs : args.Valid) {r : Run} (hr : Run.Reach rng lib args r) :
    r.jobs.inFlight.length ≤ args.concurrency ∧ InOrder r.written ∧
    (r.Completed →
      (r.called args).map Request.identity = planned (makeManifest rng args) ∧
      r.written.map identity = (planned (makeManifest rng args)).map Identity.values ∧
      (planned (makeManifest rng args)).Nodup ∧
      expect [] (planned (makeManifest rng args)) = .ok (planned (makeManifest rng args))) := by
  have hinv := hr.inv hargs
  refine ⟨?_, hinv.ordered hargs, fun hcompleted => ?_⟩
  · cases hphases : r.phases with
    | nil =>
      rw [hinv.idle hphases]
      exact Nat.zero_le _
    | cons p ps => exact (hinv.jobs p ps hphases).inFlight_le.trans (Nat.min_le_right _ _)
  · obtain ⟨ended, hsplit, hcalls, hwritten⟩ := hinv.split
    have hphases : r.phases = [] := hcompleted
    rw [hphases, List.append_nil] at hsplit
    subst hsplit
    have hnodup : (planned (makeManifest rng args)).Nodup :=
      (nodup_planned (m := makeManifest rng args) hargs.requests).mpr (nodup_schedule hargs)
    refine ⟨?_, ?_, hnodup, expect_ok.mpr ⟨rfl, hnodup, by simp⟩⟩
    · simp only [Run.called, hphases, hcalls, List.append_nil]
      exact identities_planPhases
    · rw [hwritten, ← identities_planPhases, List.map_map]
      rfl

/-! ## Completion -/

/-- A collection can always be completed, if its requests end. -/
theorem Run.exists_completed (observed : Observed) (r : Run) :
    ∃ r', Relation.ReflTransGen (Run.Step lib args) r r' ∧ r'.Completed := by
  obtain ⟨phases, jobs, calls, written⟩ := r
  induction phases generalizing jobs calls written with
  | nil => exact ⟨_, .refl, rfl⟩
  | cons p ps ih =>
    obtain ⟨ended, hsteps, hfinished⟩ := Jobs.exists_finished p.count observed jobs
    have hwork : Relation.ReflTransGen (Run.Step lib args) ⟨p :: ps, jobs, calls, written⟩
        ⟨p :: ps, ended, calls, written⟩ :=
      hsteps.lift (fun j => Run.mk (p :: ps) j calls written) fun _ _ hstep => .work rfl hstep
    obtain ⟨r', hrest, hcompleted⟩ := ih (enter args ps) _ _
    exact ⟨r', (hwork.tail (.leave rfl hfinished)).trans hrest, hcompleted⟩

end

/-! ## The setting of the tests -/

def mockShuffle : Shuffle := ⟨fun _ names => names, fun _ names => List.Perm.refl names⟩

def mockArgs : Args where
  modes := FIXED_MODES
  condition := "GOOD"
  trials := 2
  requests := 3
  concurrency := 2
  warmup := 1
  seed := 20261018

theorem mockArgs_valid : mockArgs.Valid where
  trials := by decide
  requests := by decide
  concurrency := by decide
  nodup := by decide
  known mode hmode := .inl hmode
  fixed mode hmode := hmode

theorem collection_matches_plan_mock : ∃ r : Run,
    Run.Reach mockShuffle mockDecoders mockArgs r ∧ r.Completed ∧
      r.written.map identity = (planned (makeManifest mockShuffle mockArgs)).map Identity.values := by
  obtain ⟨r, hr, hcompleted⟩ := Run.exists_completed
    (mockClock, mockOutcome 200) (Run.start mockShuffle mockArgs)
  exact ⟨r, hr, hcompleted, ((collection_matches_plan mockArgs_valid hr).2.2 hcompleted).2.1⟩

end Study
end AdaptiveGateway
