/-
Workers that take numbered jobs from a counter they share.

A worker reads the counter and moves it on in one step, since it is not interrupted
between the two.  Then it is busy until its job ends, in whatever order the jobs do, and
in the step in which it has its result it looks at the counter again.

`Jobs.Inv` is what holds in every interleaving: the jobs that are under way and those
that have ended are the jobs below the counter, each of them once.
-/
import Mathlib.Data.List.Range
import Mathlib.Logic.Relation

namespace Concurrent

inductive Worker where
  | ready
  | busy (job : Nat)
  | done
deriving DecidableEq

/-- The job that a worker is busy with. -/
def Worker.job? : Worker → Option Nat
  | .busy job => some job
  | _ => none

/-- `taken` are the jobs in the order in which they were begun. -/
structure Jobs (ρ : Type) where
  workers : List Worker
  next : Nat
  taken : List Nat
  results : List (Nat × ρ)

namespace Jobs

variable {ρ : Type}

def start (workers : Nat) : Jobs ρ := ⟨List.replicate workers .ready, 1, [], []⟩

/-- The jobs under way. -/
def inFlight (s : Jobs ρ) : List Nat := s.workers.filterMap Worker.job?

def Finished (s : Jobs ρ) : Prop := ∀ w ∈ s.workers, w = .done

/-- A worker looks at the counter. -/
def take (count i : Nat) (s : Jobs ρ) : Jobs ρ :=
  if s.next ≤ count then
    { s with
      workers := s.workers.set i (.busy s.next)
      next := s.next + 1
      taken := s.taken ++ [s.next] }
  else { s with workers := s.workers.set i .done }

def record (job : Nat) (r : ρ) (s : Jobs ρ) : Jobs ρ :=
  { s with results := s.results ++ [(job, r)] }

/-- A worker goes on from where it was waiting. -/
inductive Step (count : Nat) : Jobs ρ → Jobs ρ → Prop
  | begin {s : Jobs ρ} {i : Nat} (h : s.workers[i]? = some .ready) : Step count s (s.take count i)
  | resume {s : Jobs ρ} {i job : Nat} (h : s.workers[i]? = some (.busy job)) (r : ρ) :
      Step count s ((s.record job r).take count i)

/-! ## The invariant -/

structure Inv (count workers : Nat) (s : Jobs ρ) : Prop where
  workers : s.workers.length = workers
  next_le : s.next ≤ count + 1
  taken : s.taken = List.range' 1 (s.next - 1)
  next_pos : 1 ≤ s.next
  jobs : (s.results.map Prod.fst ++ s.inFlight).Perm s.taken
  done : Worker.done ∈ s.workers → count < s.next

theorem inv_start (count workers : Nat) : (start workers : Jobs ρ).Inv count workers where
  workers := List.length_replicate
  next_le := Nat.le_add_left 1 count
  taken := rfl
  next_pos := Nat.le_refl 1
  jobs := by simp [start, inFlight, Worker.job?]
  done h := by cases List.eq_of_mem_replicate h

theorem filterMap_middle (l₁ l₂ : List Worker) (w : Worker) :
    ((l₁ ++ w :: l₂).filterMap Worker.job?).Perm
      (w.job?.toList ++ (l₁.filterMap Worker.job? ++ l₂.filterMap Worker.job?)) := by
  rw [List.filterMap_append, List.filterMap_cons]
  cases w with
  | busy job => exact List.perm_middle
  | _ => exact List.Perm.refl _

/-- One worker between those before and those behind it. -/
theorem set_split {workers : List Worker} {i : Nat} {v : Worker} (h : workers[i]? = some v) :
    workers = workers.take i ++ v :: workers.drop (i + 1) ∧
      ∀ w, workers.set i w = workers.take i ++ w :: workers.drop (i + 1) := by
  obtain ⟨hi, hv⟩ := List.getElem?_eq_some_iff.mp h
  have hset : ∀ w, workers.set i w = workers.take i ++ w :: workers.drop (i + 1) := fun w => by
    rw [List.set_eq_take_append_cons_drop, if_pos hi]
  refine ⟨?_, hset⟩
  rw [← hset v, ← hv, List.set_getElem_self]

/-- The jobs of the other workers stay what they are when one worker changes. -/
theorem inFlight_set {workers : List Worker} {i : Nat} {v : Worker} (h : workers[i]? = some v) :
    ∃ rest, (workers.filterMap Worker.job?).Perm (v.job?.toList ++ rest) ∧ ∀ w,
      ((workers.set i w).filterMap Worker.job?).Perm (w.job?.toList ++ rest) := by
  obtain ⟨hself, hset⟩ := set_split h
  refine ⟨(workers.take i).filterMap Worker.job? ++ (workers.drop (i + 1)).filterMap Worker.job?,
    ?_, fun w => ?_⟩
  · conv_lhs => rw [hself]
    exact filterMap_middle _ _ v
  · rw [hset]
    exact filterMap_middle _ _ w

section

variable {count workers i : Nat} {s : Jobs ρ}

/-- What is asked of a worker that looks at the counter: every job but those of the other
workers has ended. -/
structure Free (count workers i : Nat) (s : Jobs ρ) : Prop where
  workers : s.workers.length = workers
  next_le : s.next ≤ count + 1
  taken : s.taken = List.range' 1 (s.next - 1)
  next_pos : 1 ≤ s.next
  rest : ∃ rest, (s.results.map Prod.fst ++ rest).Perm s.taken ∧
    ∀ w, ((s.workers.set i w).filterMap Worker.job?).Perm (w.job?.toList ++ rest)
  done : Worker.done ∈ s.workers → count < s.next

theorem Free.take (h : s.Free count workers i) : (s.take count i).Inv count workers := by
  obtain ⟨hworkers, hle, htaken, hpos, ⟨rest, hrest, hset⟩, hdone⟩ := h
  rw [Jobs.take]
  split
  next hnext =>
    refine ⟨by simpa using hworkers, by simpa using hnext, ?_, by simp, ?_, fun hmem => ?_⟩
    · have hlast : List.range' 1 s.next = List.range' 1 (s.next - 1) ++ [s.next] := by
        have hsucc := List.range'_1_concat (s := 1) (n := s.next - 1)
        rwa [Nat.sub_add_cancel hpos, Nat.add_sub_cancel' hpos] at hsucc
      rw [htaken]
      exact hlast.symm
    · have hmiddle : (s.results.map Prod.fst ++ ([s.next] ++ rest)).Perm
          (s.next :: (s.results.map Prod.fst ++ rest)) := List.perm_middle
      refine ((hset (.busy s.next)).append_left _).trans (hmiddle.trans ?_)
      exact (hrest.cons _).trans (List.perm_append_singleton _ _).symm
    · rcases List.mem_or_eq_of_mem_set hmem with hmem | hmem
      · exact absurd hnext (Nat.not_le_of_lt (hdone hmem))
      · cases hmem
  next hnext =>
    refine ⟨by simpa using hworkers, hle, htaken, hpos, ?_, fun _ => Nat.lt_of_not_le hnext⟩
    exact ((hset .done).append_left _).trans hrest

theorem Inv.step {s' : Jobs ρ} (h : s.Inv count workers) (hstep : Step count s s') :
    s'.Inv count workers := by
  obtain ⟨hworkers, hle, htaken, hpos, hjobs, hdone⟩ := h
  cases hstep with
  | begin hready =>
    obtain ⟨rest, hrest, hset⟩ := inFlight_set hready
    exact Free.take ⟨hworkers, hle, htaken, hpos,
      ⟨rest, (hrest.symm.append_left _).trans hjobs, hset⟩, hdone⟩
  | @resume i job hbusy r =>
    obtain ⟨rest, hrest, hset⟩ := inFlight_set hbusy
    refine Free.take ⟨hworkers, hle, htaken, hpos, ⟨rest, ?_, hset⟩, hdone⟩
    have hended := (hrest.symm.append_left _).trans hjobs
    rwa [Jobs.record, List.map_append, List.append_assoc]

end

/-- In every interleaving there are no more jobs under way than workers. -/
theorem Inv.inFlight_le {count workers : Nat} {s : Jobs ρ} (h : s.Inv count workers) :
    s.inFlight.length ≤ workers := by
  rw [← h.workers]
  exact List.length_filterMap_le _ _

/-- When all workers are done, every job has been taken once and has ended once. -/
theorem Inv.finished {count workers : Nat} {s : Jobs ρ} (h : s.Inv count workers)
    (hworkers : 0 < count → 0 < workers) (hfinished : s.Finished) :
    s.taken = List.range' 1 count ∧ (s.results.map Prod.fst).Perm (List.range' 1 count) := by
  have hnext : s.next - 1 = count := by
    have hle := h.next_le
    have hpos := h.next_pos
    by_cases hcount : 0 < count
    · have hmem : Worker.done ∈ s.workers := by
        have hlen := hworkers hcount
        rw [← h.workers] at hlen
        obtain ⟨w, hw⟩ := List.exists_mem_of_length_pos hlen
        exact hfinished w hw ▸ hw
      have hlt := h.done hmem
      omega
    · omega
  have hnone : s.inFlight = [] := by
    rw [inFlight, List.filterMap_eq_nil_iff]
    intro w hw
    rw [hfinished w hw]
    rfl
  have htaken := h.taken
  rw [hnext] at htaken
  have hjobs := h.jobs
  rw [hnone, List.append_nil, htaken] at hjobs
  exact ⟨htaken, hjobs⟩

/-! ## Progress -/

/-- How many steps are left: the jobs that nobody has taken, and the workers. -/
def remaining (count : Nat) (s : Jobs ρ) : Nat :=
  (count + 1 - s.next) + s.workers.countP fun w => decide (w ≠ .done)

theorem countP_set {workers : List Worker} {i : Nat} {v w : Worker} (h : workers[i]? = some v)
    (hv : v ≠ .done) :
    (workers.set i w).countP (fun w => decide (w ≠ .done)) + 1 =
      workers.countP (fun w => decide (w ≠ .done)) + if w = .done then 0 else 1 := by
  obtain ⟨hself, hset⟩ := set_split h
  rw [hset]
  conv_rhs => rw [hself]
  rw [List.countP_append, List.countP_append, List.countP_cons, List.countP_cons,
    if_pos (decide_eq_true hv)]
  by_cases hw : w = .done
  · rw [if_pos hw, if_neg (by simp [hw])]
    omega
  · rw [if_neg hw, if_pos (decide_eq_true hw)]

theorem remaining_take {count i : Nat} {s : Jobs ρ} {v : Worker} (h : s.workers[i]? = some v)
    (hv : v ≠ .done) : (s.take count i).remaining count < s.remaining count := by
  rw [take]
  split
  next hnext =>
    have hset := countP_set (w := .busy s.next) h hv
    rw [if_neg (by simp)] at hset
    simp only [remaining]
    omega
  next hnext =>
    have hset := countP_set (w := .done) h hv
    rw [if_pos rfl] at hset
    simp only [remaining]
    omega

theorem Step.remaining {count : Nat} {s s' : Jobs ρ} (h : Step count s s') :
    s'.remaining count < s.remaining count := by
  cases h with
  | begin hready => exact remaining_take hready (by simp)
  | @resume i job hbusy r =>
    have hlt : ((s.record job r).take count i).remaining count < (s.record job r).remaining count :=
      remaining_take hbusy (by simp)
    exact hlt

/-- As long as a worker is not done there is a step. -/
theorem progress (count : Nat) (r : ρ) {s : Jobs ρ} (h : ¬s.Finished) : ∃ s', Step count s s' := by
  rw [Finished] at h
  push Not at h
  obtain ⟨w, hw, hdone⟩ := h
  obtain ⟨i, hi⟩ := List.mem_iff_getElem?.mp hw
  cases w with
  | ready => exact ⟨_, .begin hi⟩
  | busy job => exact ⟨_, .resume hi r⟩
  | done => exact absurd rfl hdone

/-- Every run comes to its end. -/
theorem exists_finished (count : Nat) (r : ρ) (s : Jobs ρ) :
    ∃ s', Relation.ReflTransGen (Step count) s s' ∧ s'.Finished := by
  induction hn : s.remaining count using Nat.strong_induction_on generalizing s with
  | _ n ih =>
    by_cases h : s.Finished
    · exact ⟨s, .refl, h⟩
    · obtain ⟨t, hstep⟩ := progress count r h
      obtain ⟨s', hsteps, hfinished⟩ := ih _ (hn ▸ hstep.remaining) t rfl
      exact ⟨s', hsteps.head hstep, hfinished⟩

end Jobs

end Concurrent
