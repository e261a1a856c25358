/-
Interleaved programs over a shared state.

A `Machine` says how commands act on the state, what else may happen to it, and
which program each thread runs.  A `Pool` is a state with the rest of every
thread's program, and a `Label` names one step: a thread's next command with
the choice that resolves it, the next round of a thread whose body has ended, a
crash, or an event of the surroundings.  Given its label a step is a function,
so a run is a list of labels and can be evaluated.

`Contract` collects the obligations of a rely-guarantee proof, and
`Contract.sound` is the rule that every invariant of a pool below goes through:
each thread is proved alone, against what the others are bound to keep.
-/
import AdaptiveGateway.Concurrent.Prog
import Mathlib.Logic.Function.Basic
import Mathlib.Data.List.Infix

namespace Concurrent

variable {ι C : Type} {A : C → Type} {ε α σ χ η : Type}

/-- Threads `ι` issuing commands on a state `σ`.  A choice in `χ` resolves how a
command comes out, and `η` are the events of the surroundings. -/
structure Machine (ι C : Type) (A : C → Type) (ε α σ χ η : Type) where
  /-- The outcome of a command issued by a thread, if the choice fits. -/
  exec : ι → (c : C) → χ → σ → Option (Except ε (A c) × σ)
  env : η → σ → Option σ
  /-- What the state keeps of a thread that has crashed. -/
  drop : ι → σ → σ
  boot : ι → Prog C A ε α
  /-- The next round of a thread whose program ended with this outcome. -/
  again : ι → Except ε α → Option (Prog C A ε α)

structure Pool (ι C : Type) (A : C → Type) (ε α σ : Type) where
  state : σ
  prog : ι → Option (Prog C A ε α)

inductive Label (ι χ η : Type) where
  | act (i : ι) (ch : χ)
  | loop (i : ι)
  | crash (i : ι)
  | env (e : η)

/-- Which steps a run is allowed to take, as far as the state and the command
say. -/
structure Guard (ι C σ χ η : Type) where
  act : ι → C → χ → σ → Prop
  crash : ι → σ → Prop
  env : η → σ → Prop

namespace Guard

/-- Every step is allowed. -/
def any : Guard ι C σ χ η where
  act _ _ _ _ := True
  crash _ _ := True
  env _ _ := True

def allows (g : Guard ι C σ χ η) (p : Pool ι C A ε α σ) : Label ι χ η → Prop
  | .act i ch =>
    match p.prog i with
    | some (.call c _) => g.act i c ch p.state
    | _ => True
  | .loop _ => True
  | .crash i => g.crash i p.state
  | .env e => g.env e p.state

theorem any_allows (p : Pool ι C A ε α σ) (l : Label ι χ η) :
    (any : Guard ι C σ χ η).allows p l := by
  cases l with
  | act i ch =>
    simp only [allows]
    split <;> trivial
  | loop i => trivial
  | crash i => trivial
  | env e => trivial

end Guard

namespace Machine

variable [DecidableEq ι] (M : Machine ι C A ε α σ χ η)

def start (s : σ) : Pool ι C A ε α σ where
  state := s
  prog i := some (M.boot i)

def step (p : Pool ι C A ε α σ) : Label ι χ η → Option (Pool ι C A ε α σ)
  | .act i ch =>
    match p.prog i with
    | some (.call c k) =>
      (M.exec i c ch p.state).map fun o =>
        ⟨o.2, Function.update p.prog i (some (k o.1))⟩
    | _ => none
  | .loop i =>
    match p.prog i with
    | some (.ret a) => (M.again i (.ok a)).map fun q =>
        ⟨p.state, Function.update p.prog i (some q)⟩
    | some (.raise e) => (M.again i (.error e)).map fun q =>
        ⟨p.state, Function.update p.prog i (some q)⟩
    | _ => none
  | .crash i =>
    match p.prog i with
    | some _ => some ⟨M.drop i p.state, Function.update p.prog i none⟩
    | none => none
  | .env e => (M.env e p.state).map fun s => ⟨s, p.prog⟩

/-- A run: the labels are taken from left to right. -/
def run : Pool ι C A ε α σ → List (Label ι χ η) → Option (Pool ι C A ε α σ)
  | p, [] => some p
  | p, l :: ls => (M.step p l).bind fun q => run q ls

/-- The pools that runs inside the guard reach from `p`. -/
inductive Reach (g : Guard ι C σ χ η) (p : Pool ι C A ε α σ) : Pool ι C A ε α σ → Prop where
  | here : Reach g p p
  | step {q q' : Pool ι C A ε α σ} {l : Label ι χ η} :
      Reach g p q → g.allows q l → M.step q l = some q' → Reach g p q'

variable {M}

/-- Everything one step can do. -/
theorem step_cases {p q : Pool ι C A ε α σ} {l : Label ι χ η} (h : M.step p l = some q) :
    (∃ i ch c k r s, l = .act i ch ∧ p.prog i = some (.call c k) ∧
        M.exec i c ch p.state = some (r, s) ∧
        q = ⟨s, Function.update p.prog i (some (k r))⟩) ∨
    (∃ i r n, l = .loop i ∧ M.again i r = some n ∧
        (p.prog i = some (Prog.ofExcept r)) ∧
        q = ⟨p.state, Function.update p.prog i (some n)⟩) ∨
    (∃ i, l = .crash i ∧ q = ⟨M.drop i p.state, Function.update p.prog i none⟩) ∨
    (∃ e s, l = .env e ∧ M.env e p.state = some s ∧ q = ⟨s, p.prog⟩) := by
  cases l with
  | act i ch =>
    simp only [step] at h
    split at h
    next c k hp =>
      obtain ⟨⟨r, s⟩, he, rfl⟩ := Option.map_eq_some_iff.mp h
      exact Or.inl ⟨i, ch, c, k, r, s, rfl, hp, he, rfl⟩
    next => cases h
  | loop i =>
    simp only [step] at h
    split at h
    next a hp =>
      obtain ⟨n, hn, rfl⟩ := Option.map_eq_some_iff.mp h
      exact Or.inr (Or.inl ⟨i, .ok a, n, rfl, hn, hp, rfl⟩)
    next e hp =>
      obtain ⟨n, hn, rfl⟩ := Option.map_eq_some_iff.mp h
      exact Or.inr (Or.inl ⟨i, .error e, n, rfl, hn, hp, rfl⟩)
    next => cases h
  | crash i =>
    simp only [step] at h
    split at h
    next => exact Or.inr (Or.inr (Or.inl ⟨i, rfl, (Option.some.inj h).symm⟩))
    next => cases h
  | env e =>
    obtain ⟨s, hs, rfl⟩ := Option.map_eq_some_iff.mp h
    exact Or.inr (Or.inr (Or.inr ⟨e, s, rfl, hs, rfl⟩))

/-- A thread's step, where its command is known. -/
theorem step_act {p q : Pool ι C A ε α σ} {i : ι} {ch : χ} {c : C}
    {k : Except ε (A c) → Prog C A ε α} (hp : p.prog i = some (.call c k))
    (h : M.step p (.act i ch) = some q) :
    ∃ r s, M.exec i c ch p.state = some (r, s) ∧
      q = ⟨s, Function.update p.prog i (some (k r))⟩ := by
  simp only [step, hp] at h
  obtain ⟨⟨r, s⟩, he, rfl⟩ := Option.map_eq_some_iff.mp h
  exact ⟨r, s, he, rfl⟩

/-- A thread makes its next move. -/
theorem Reach.act {g : Guard ι C σ χ η} {p q : Pool ι C A ε α σ} (h : M.Reach g p q) (i : ι)
    (ch : χ) {c : C} {k : Except ε (A c) → Prog C A ε α} {r : Except ε (A c)} {s : σ}
    (hp : q.prog i = some (.call c k)) (hg : g.act i c ch q.state)
    (he : M.exec i c ch q.state = some (r, s)) :
    M.Reach g p ⟨s, Function.update q.prog i (some (k r))⟩ := by
  refine .step (l := .act i ch) h ?_ ?_
  · simp only [Guard.allows, hp]
    exact hg
  · simp only [Machine.step, hp, he, Option.map_some]

theorem Reach.trans {g : Guard ι C σ χ η} {p q r : Pool ι C A ε α σ}
    (hpq : M.Reach g p q) (hqr : M.Reach g q r) : M.Reach g p r := by
  induction hqr with
  | here => exact hpq
  | step _ hg hs ih => exact ih.step hg hs

theorem Reach.unguarded {g : Guard ι C σ χ η} {p q : Pool ι C A ε α σ} (h : M.Reach g p q) :
    M.Reach Guard.any p q := by
  induction h with
  | here => exact .here
  | step _ _ hs ih => exact ih.step (Guard.any_allows _ _) hs

/-- A property of the state that every allowed command, event and crash keeps
holds wherever a run gets to. -/
theorem Reach.state_invariant {g : Guard ι C σ χ η} {J : σ → Prop}
    {p q : Pool ι C A ε α σ} (hpq : M.Reach g p q)
    (hact : ∀ i c ch s r s', g.act i c ch s → J s → M.exec i c ch s = some (r, s') → J s')
    (hcrash : ∀ i s, g.crash i s → J s → J (M.drop i s))
    (henv : ∀ e s s', g.env e s → J s → M.env e s = some s' → J s')
    (hp : J p.state) : J q.state := by
  induction hpq with
  | here => exact hp
  | @step q q' l _ hg hs ih =>
    obtain ⟨i, ch, c, k, r, s, rfl, hpr, he, rfl⟩ | ⟨i, r, n, rfl, -, -, rfl⟩ |
      ⟨i, rfl, rfl⟩ | ⟨e, s, rfl, he, rfl⟩ := step_cases hs
    · simp only [Guard.allows, hpr] at hg
      exact hact i c ch q.state r s hg ih he
    · exact ih
    · exact hcrash i q.state hg ih
    · exact henv e q.state s hg ih he

/-- Each command of a run is one that the thread may issue, so it is enough that these keep
a property of the state. -/
theorem Reach.issues_invariant {g : Guard ι C σ χ η} {S : ι → C → Prop} {J : σ → Prop} {s₀ : σ}
    {q : Pool ι C A ε α σ} (hq : M.Reach g (M.start s₀) q) (hboot : ∀ i, (M.boot i).Issues (S i))
    (hagain : ∀ i r p, M.again i r = some p → p.Issues (S i))
    (hact : ∀ i c ch s r s', S i c → J s → M.exec i c ch s = some (r, s') → J s')
    (hcrash : ∀ i s, J s → J (M.drop i s))
    (henv : ∀ e s s', J s → M.env e s = some s' → J s') (h₀ : J s₀) : J q.state := by
  have hthreads : J q.state ∧ ∀ i p, q.prog i = some p → p.Issues (S i) := by
    induction hq with
    | here => exact ⟨h₀, fun i p hp => Option.some.inj hp ▸ hboot i⟩
    | @step q q' l _ _ hs ih =>
      obtain ⟨hJ, hissues⟩ := ih
      obtain ⟨i, ch, c, k, r, s, rfl, hpr, he, rfl⟩ | ⟨i, r, n, rfl, hn, -, rfl⟩ |
        ⟨i, rfl, rfl⟩ | ⟨e, s, rfl, he, rfl⟩ := step_cases hs
      · obtain ⟨hc, hk⟩ := hissues i _ hpr
        refine ⟨hact i c ch q.state r s hc hJ he, fun j p hp => ?_⟩
        by_cases hij : j = i
        · subst hij
          obtain rfl : k r = p := by simpa using hp
          exact hk r
        · exact hissues j p (by simpa [Function.update_of_ne hij] using hp)
      · refine ⟨hJ, fun j p hp => ?_⟩
        by_cases hij : j = i
        · subst hij
          obtain rfl : n = p := by simpa using hp
          exact hagain j r n hn
        · exact hissues j p (by simpa [Function.update_of_ne hij] using hp)
      · refine ⟨hcrash i q.state hJ, fun j p hp => ?_⟩
        by_cases hij : j = i
        · subst hij
          simp at hp
        · exact hissues j p (by simpa [Function.update_of_ne hij] using hp)
      · exact ⟨henv e q.state s hJ he, hissues⟩
  exact hthreads.1

theorem run_append (p : Pool ι C A ε α σ) (ls ms : List (Label ι χ η)) :
    M.run p (ls ++ ms) = (M.run p ls).bind fun q => M.run q ms := by
  induction ls generalizing p with
  | nil => rfl
  | cons l ls ih =>
    simp only [List.cons_append, run, Option.bind_assoc]
    exact congrArg _ (funext ih)

theorem reach_of_run {p q : Pool ι C A ε α σ} {ls : List (Label ι χ η)}
    (h : M.run p ls = some q) : M.Reach Guard.any p q := by
  induction ls generalizing p with
  | nil =>
    obtain rfl := Option.some.inj h
    exact .here
  | cons l ls ih =>
    obtain ⟨p', hp, hq⟩ := Option.bind_eq_some_iff.mp h
    exact Reach.trans (.step .here (Guard.any_allows p l) hp) (ih hq)

/-- The run passes through the pool. -/
def Visits (M : Machine ι C A ε α σ χ η) (p₀ : Pool ι C A ε α σ) (ls : List (Label ι χ η))
    (q : Pool ι C A ε α σ) : Prop :=
  ∃ pre, pre <+: ls ∧ M.run p₀ pre = some q

/-- The run takes the step `l` from the pool. -/
def Takes (M : Machine ι C A ε α σ χ η) (p₀ : Pool ι C A ε α σ) (ls : List (Label ι χ η))
    (p : Pool ι C A ε α σ) (l : Label ι χ η) : Prop :=
  ∃ pre, pre ++ [l] <+: ls ∧ M.run p₀ pre = some p ∧ ∃ q, M.step p l = some q

theorem run_concat {p₀ p q : Pool ι C A ε α σ} {ls : List (Label ι χ η)} {l : Label ι χ η}
    (hp : M.run p₀ ls = some p) (hq : M.step p l = some q) : M.run p₀ (ls ++ [l]) = some q := by
  simp [run_append, hp, run, hq]

theorem run_concat_cases {p₀ q : Pool ι C A ε α σ} {ls : List (Label ι χ η)} {l : Label ι χ η}
    (h : M.run p₀ (ls ++ [l]) = some q) : ∃ p, M.run p₀ ls = some p ∧ M.step p l = some q := by
  rw [run_append] at h
  obtain ⟨p, hp, hq⟩ := Option.bind_eq_some_iff.mp h
  obtain ⟨q', hq', hlast⟩ := Option.bind_eq_some_iff.mp hq
  cases hlast
  exact ⟨p, hp, hq'⟩

/-- If each step keeps `J`, and keeps `P` exactly if it is not one of the steps
`B`, then `P` holds all along a run exactly if the run takes no such step. -/
theorem visits_iff_takes {J P : σ → Prop} {B : Pool ι C A ε α σ → Label ι χ η → Prop}
    {p₀ : Pool ι C A ε α σ} (hJ : J p₀.state) (hP : P p₀.state)
    (hstepJ : ∀ p l q, M.step p l = some q → J p.state → J q.state)
    (hstepP : ∀ p l q, M.step p l = some q → J p.state → P p.state → (P q.state ↔ ¬B p l))
    (ls : List (Label ι χ η)) :
    (∀ q, M.Visits p₀ ls q → P q.state) ↔ ∀ p l, M.Takes p₀ ls p l → ¬B p l := by
  have hrunJ : ∀ pre q, M.run p₀ pre = some q → J q.state := by
    intro pre
    induction pre using List.reverseRecOn with
    | nil =>
      rintro q ⟨⟩
      exact hJ
    | append_singleton pre l ih =>
      intro q hq
      obtain ⟨p, hp, hs⟩ := run_concat_cases hq
      exact hstepJ p l q hs (ih p hp)
  constructor
  · rintro hall p l ⟨pre, hpre, hp, q, hq⟩
    have hPp : P p.state := hall p ⟨pre, (List.prefix_append pre [l]).trans hpre, hp⟩
    exact (hstepP p l q hq (hrunJ pre p hp) hPp).mp (hall q ⟨_, hpre, run_concat hp hq⟩)
  · rintro hall q ⟨pre, hpre, hq⟩
    induction pre using List.reverseRecOn generalizing q with
    | nil =>
      cases hq
      exact hP
    | append_singleton pre l ih =>
      obtain ⟨p, hp, hs⟩ := run_concat_cases hq
      have hPp : P p.state := ih p ((List.prefix_append pre [l]).trans hpre) hp
      exact (hstepP p l q hs (hrunJ pre p hp) hPp).mpr (hall p l ⟨pre, hpre, hp, q, hs⟩)

/-- `run`, stopping at the first step the guard does not allow. -/
def runIn (M : Machine ι C A ε α σ χ η) (ok : Pool ι C A ε α σ → Label ι χ η → Bool) :
    Pool ι C A ε α σ → List (Label ι χ η) → Option (Pool ι C A ε α σ)
  | p, [] => some p
  | p, l :: ls => if ok p l then (M.step p l).bind fun q => runIn M ok q ls else none

theorem reach_of_runIn {g : Guard ι C σ χ η} {ok : Pool ι C A ε α σ → Label ι χ η → Bool}
    (hok : ∀ p l, ok p l = true → g.allows p l) {p q : Pool ι C A ε α σ}
    {ls : List (Label ι χ η)} (h : runIn M ok p ls = some q) : M.Reach g p q := by
  induction ls generalizing p with
  | nil =>
    obtain rfl := Option.some.inj h
    exact .here
  | cons l ls ih =>
    simp only [runIn] at h
    split at h
    next hl =>
      obtain ⟨p', hp, hq⟩ := Option.bind_eq_some_iff.mp h
      exact Reach.trans (.step .here (hok p l hl) hp) (ih hq)
    next => cases h

end Machine

/-! ## The rely-guarantee rule -/

/-- What the threads of a machine owe each other.  `R i` is what thread `i`
relies on, `G i` what it guarantees, and `Q i` what holds when its body ends. -/
structure Contract (M : Machine ι C A ε α σ χ η) (g : Guard ι C σ χ η) where
  I : σ → Prop
  R : ι → σ → σ → Prop
  G : ι → σ → σ → Prop
  Q : ι → Except ε α → σ → Prop
  refl : ∀ i s, R i s s
  trans : ∀ i s t u, R i s t → R i t u → R i s u
  others : ∀ i j s s', i ≠ j → I s → I s' → G i s s' → R j s s'
  env : ∀ e s s', g.env e s → I s → M.env e s = some s' → I s' ∧ ∀ j, R j s s'
  crash : ∀ i s, g.crash i s → I s → I (M.drop i s) ∧ ∀ j, i ≠ j → R j s (M.drop i s)

namespace Contract

variable {M : Machine ι C A ε α σ χ η} {g : Guard ι C σ χ η}

/-- One thread's view of the contract. -/
def pact (K : Contract M g) (i : ι) : Prog.Pact C A ε σ where
  run c s r s' := ∃ ch, g.act i c ch s ∧ K.I s ∧ M.exec i c ch s = some (r, s')
  I := K.I
  R := K.R i
  G := K.G i

/-- The obligations of `p`, in every state the others may turn the current one
into. -/
def Kept (K : Contract M g) (i : ι) (s : σ) (p : Prog C A ε α) : Prop :=
  ∀ t, K.I t → K.R i s t → p.wp (K.pact i) (K.Q i) t

theorem Kept.mono {K : Contract M g} {i : ι} {s t : σ} {p : Prog C A ε α}
    (h : K.Kept i s p) (hst : K.R i s t) : K.Kept i t p :=
  fun u hu htu => h u hu (K.trans i s t u hst htu)

variable [DecidableEq ι]

/-- From a pool where every thread meets its obligations, only such pools are reached. -/
theorem sound_from (K : Contract M g) {p₀ : Pool ι C A ε α σ} (h₀ : K.I p₀.state)
    (hkept₀ : ∀ i p, p₀.prog i = some p → K.Kept i p₀.state p)
    (hagain : ∀ i r p t, M.again i r = some p → K.I t → K.Q i r t →
      p.wp (K.pact i) (K.Q i) t)
    {q : Pool ι C A ε α σ} (hq : M.Reach g p₀ q) :
    K.I q.state ∧ ∀ i p, q.prog i = some p → K.Kept i q.state p := by
  induction hq with
  | here => exact ⟨h₀, hkept₀⟩
  | @step q q' l _ hg hs ih =>
    obtain ⟨hI, hkept⟩ := ih
    obtain ⟨i, ch, c, k, r, s, rfl, hpr, he, rfl⟩ | ⟨i, r, n, rfl, hn, hpr, rfl⟩ |
      ⟨i, rfl, rfl⟩ | ⟨e, s, rfl, he, rfl⟩ := Machine.step_cases hs
    · simp only [Guard.allows, hpr] at hg
      obtain ⟨hI', hG, hk⟩ := hkept i _ hpr q.state hI (K.refl i q.state) r s ⟨ch, hg, hI, he⟩
      refine ⟨hI', fun j p hp => ?_⟩
      by_cases hij : i = j
      · subst hij
        obtain rfl : k r = p := by simpa using hp
        exact hk
      · have hp' : q.prog j = some p := by
          simpa [Function.update_of_ne (Ne.symm hij)] using hp
        exact (hkept j p hp').mono (K.others i j _ _ hij hI hI' hG)
    · refine ⟨hI, fun j p hp => ?_⟩
      by_cases hij : i = j
      · subst hij
        obtain rfl : n = p := by simpa using hp
        intro t ht hR
        have hQ := hkept i _ hpr t ht hR
        cases r with
        | ok a => exact hagain i (.ok a) n t hn ht hQ
        | error e => exact hagain i (.error e) n t hn ht hQ
      · have hp' : q.prog j = some p := by
          simpa [Function.update_of_ne (Ne.symm hij)] using hp
        exact hkept j p hp'
    · obtain ⟨hI', hR⟩ := K.crash i q.state hg hI
      refine ⟨hI', fun j p hp => ?_⟩
      by_cases hij : i = j
      · subst hij
        simp at hp
      · have hp' : q.prog j = some p := by
          simpa [Function.update_of_ne (Ne.symm hij)] using hp
        exact (hkept j p hp').mono (hR j hij)
    · obtain ⟨hI', hR⟩ := K.env e q.state s hg hI he
      exact ⟨hI', fun j p hp => (hkept j p hp).mono (hR j)⟩

/-- Every reachable pool keeps the invariant, and every thread in it still has
its obligations met. -/
theorem sound (K : Contract M g) {s₀ : σ} (h₀ : K.I s₀)
    (hboot : ∀ i, K.Kept i s₀ (M.boot i))
    (hagain : ∀ i r p t, M.again i r = some p → K.I t → K.Q i r t →
      p.wp (K.pact i) (K.Q i) t)
    {q : Pool ι C A ε α σ} (hq : M.Reach g (M.start s₀) q) :
    K.I q.state ∧ ∀ i p, q.prog i = some p → K.Kept i q.state p :=
  sound_from K h₀ (fun i _ hp => Option.some.inj hp ▸ hboot i) hagain hq

end Contract

end Concurrent
