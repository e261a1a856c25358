/-
Runs seen as runs of automata, and runs with a history.

Threads whose programs follow a protocol can be replaced by the phases they are in:
`Moves` says everything a step can do to the state and to the phases, and no
program is left in it.  `Watched` are the runs that are accompanied by a history
`γ`, which no command reads; the relation that carries the history from one pool to
the next also says which steps are admitted.  An invariant of a watched run may
speak of the state, of the phases and of the history, and `Watched.invariant` asks
only that every move keeps it.

`Timely` is the history of a clock.  It notes when each thread has issued the
command it waits for.  A command takes effect between the moment it is issued and
the moment its answer arrives, and `limit` bounds the time between the two.
-/
import AdaptiveGateway.Concurrent.Pool

namespace Concurrent

variable {ι C : Type} {A : C → Type} {ε α σ χ η γ : Type}

/-! ## Phases -/

section Phases

variable (L : Prog.Protocol C A ε) (F : L.Phase → Prop)

/-- Each living thread follows the protocol from its phase on, and ends in a phase
that `F` accepts. -/
structure InPhase (p : Pool ι C A ε α σ) (φ : ι → Option L.Phase) : Prop where
  follows : ∀ i prog, p.prog i = some prog → ∃ f, φ i = some f ∧ prog.Follows L f fun _ => F
  dead : ∀ i, p.prog i = none → φ i = none

section

variable {L F} {M : Machine ι C A ε α σ χ η} {p : Pool ι C A ε α σ} {φ : ι → Option L.Phase}

theorem InPhase.start {s : σ} {φ₀ : ι → L.Phase}
    (hboot : ∀ i, (M.boot i).Follows L (φ₀ i) fun _ => F) :
    InPhase L F (M.start s) fun i => some (φ₀ i) where
  follows i prog hprog := by
    obtain rfl : M.boot i = prog := Option.some.inj hprog
    exact ⟨φ₀ i, rfl, hboot i⟩
  dead i hprog := by cases hprog

/-- A command that is pending is one that the phase allows. -/
theorem InPhase.allows {i : ι} {c : C} {k : Except ε (A c) → Prog C A ε α}
    (h : InPhase L F p φ) (hp : p.prog i = some (.call c k)) :
    ∃ f, φ i = some f ∧ L.allows f c := by
  obtain ⟨f, hf, hfollows⟩ := h.follows i _ hp
  exact ⟨f, hf, hfollows.1⟩

end

variable [DecidableEq ι]

theorem update_some {β : Type} {φ : ι → Option β} {i j : ι} {f d : β}
    (h : Function.update φ i (some f) j = some d) :
    (j = i ∧ d = f) ∨ (j ≠ i ∧ φ j = some d) := by
  by_cases hj : j = i
  · subst hj
    rw [Function.update_self] at h
    exact Or.inl ⟨rfl, (Option.some.inj h).symm⟩
  · rw [Function.update_of_ne hj] at h
    exact Or.inr ⟨hj, h⟩

/-- One step, with the phases before and after it. -/
inductive Moves (M : Machine ι C A ε α σ χ η) (p : Pool ι C A ε α σ) (φ : ι → Option L.Phase) :
    Label ι χ η → Pool ι C A ε α σ → (ι → Option L.Phase) → Prop where
  | act {i : ι} {ch : χ} {c : C} {k : Except ε (A c) → Prog C A ε α} {r : Except ε (A c)} {s : σ}
      {f : L.Phase} :
      p.prog i = some (.call c k) → M.exec i c ch p.state = some (r, s) → φ i = some f →
      L.allows f c →
      Moves M p φ (.act i ch) ⟨s, Function.update p.prog i (some (k r))⟩
        (Function.update φ i (some (L.next f c r)))
  | loop {i : ι} {n : Prog C A ε α} {f : L.Phase} : φ i = some f → F f →
      Moves M p φ (.loop i) ⟨p.state, Function.update p.prog i (some n)⟩ φ
  | crash {i : ι} :
      Moves M p φ (.crash i) ⟨M.drop i p.state, Function.update p.prog i none⟩
        (Function.update φ i none)
  | env {e : η} {s : σ} : M.env e p.state = some s → Moves M p φ (.env e) ⟨s, p.prog⟩ φ

variable {L F} {M : Machine ι C A ε α σ χ η} {p q : Pool ι C A ε α σ} {φ : ι → Option L.Phase}
  {l : Label ι χ η}

/-- A thread takes up a program that follows the protocol from its new phase on. -/
theorem InPhase.update {i : ι} {s : σ} {f : L.Phase} {n : Prog C A ε α} (h : InPhase L F p φ)
    (hn : n.Follows L f fun _ => F) :
    InPhase L F (⟨s, Function.update p.prog i (some n)⟩ : Pool ι C A ε α σ)
      (Function.update φ i (some f)) where
  follows j prog hprog := by
    by_cases hj : j = i
    · subst hj
      obtain rfl : n = prog := by simpa using hprog
      exact ⟨f, Function.update_self _ _ _, hn⟩
    · rw [Function.update_of_ne hj]
      exact h.follows j prog (by simpa [Function.update_of_ne hj] using hprog)
  dead j hj := by
    by_cases hji : j = i
    · subst hji
      simp at hj
    · rw [Function.update_of_ne hji]
      exact h.dead j (by simpa [Function.update_of_ne hji] using hj)

/-- Every step of the programs is a step of the automata. -/
theorem InPhase.step (h : InPhase L F p φ)
    (hagain : ∀ i r n f, M.again i r = some n → F f → n.Follows L f fun _ => F)
    (hs : M.step p l = some q) : ∃ φ', InPhase L F q φ' ∧ Moves L F M p φ l q φ' := by
  obtain ⟨i, ch, c, k, r, s, rfl, hp, he, rfl⟩ | ⟨i, r, n, rfl, hn, hp, rfl⟩ |
    ⟨i, rfl, rfl⟩ | ⟨e, s, rfl, he, rfl⟩ := Machine.step_cases hs
  · obtain ⟨f, hf, hallows, hnext⟩ := h.follows i _ hp
    exact ⟨_, h.update (hnext r), .act hp he hf hallows⟩
  · obtain ⟨f, hf, hended⟩ := h.follows i _ hp
    have hF : F f := by cases r <;> exact hended
    have hφ : Function.update φ i (some f) = φ := Function.update_eq_self_iff.mpr hf.symm
    have hin := h.update (i := i) (s := p.state) (hagain i r n f hn hF)
    rw [hφ] at hin
    exact ⟨φ, hin, .loop hf hF⟩
  · refine ⟨Function.update φ i none, ⟨fun j prog hprog => ?_, fun j hj => ?_⟩, .crash⟩
    · by_cases hji : j = i
      · subst hji
        simp at hprog
      · rw [Function.update_of_ne hji]
        exact h.follows j prog (by simpa [Function.update_of_ne hji] using hprog)
    · by_cases hji : j = i
      · subst hji
        exact Function.update_self _ _ _
      · rw [Function.update_of_ne hji]
        exact h.dead j (by simpa [Function.update_of_ne hji] using hj)
  · exact ⟨φ, ⟨h.follows, h.dead⟩, .env he⟩

end Phases

/-! ## Watched runs -/

section Watched

variable [DecidableEq ι]

/-- The pools and histories that the steps admitted by `R` reach. -/
inductive Watched (M : Machine ι C A ε α σ χ η)
    (R : Pool ι C A ε α σ → γ → Label ι χ η → Pool ι C A ε α σ → γ → Prop)
    (p₀ : Pool ι C A ε α σ) (g₀ : γ) : Pool ι C A ε α σ → γ → Prop where
  | here : Watched M R p₀ g₀ p₀ g₀
  | step {p q : Pool ι C A ε α σ} {g g' : γ} {l : Label ι χ η} :
      Watched M R p₀ g₀ p g → M.step p l = some q → R p g l q g' → Watched M R p₀ g₀ q g'

variable {M : Machine ι C A ε α σ χ η}
  {R : Pool ι C A ε α σ → γ → Label ι χ η → Pool ι C A ε α σ → γ → Prop}
  {p₀ p q : Pool ι C A ε α σ} {g₀ g g' : γ}

/-- What every move keeps holds of every pool of a run, for some phases that its
threads are in. -/
theorem Watched.invariant {L : Prog.Protocol C A ε} {F : L.Phase → Prop}
    {φ₀ : ι → Option L.Phase}
    {J : Pool ι C A ε α σ → (ι → Option L.Phase) → γ → Prop} (hq : Watched M R p₀ g₀ q g)
    (hagain : ∀ i r n f, M.again i r = some n → F f → n.Follows L f fun _ => F)
    (hin : InPhase L F p₀ φ₀) (h₀ : J p₀ φ₀ g₀)
    (hmove : ∀ p φ g l q φ' g', InPhase L F p φ → Moves L F M p φ l q φ' → R p g l q g' →
      J p φ g → J q φ' g') :
    ∃ φ, InPhase L F q φ ∧ J q φ g := by
  induction hq with
  | here => exact ⟨φ₀, hin, h₀⟩
  | @step p q g g' l _ hs hR ih =>
    obtain ⟨φ, hφ, hJ⟩ := ih
    obtain ⟨φ', hφ', hmoves⟩ := hφ.step hagain hs
    exact ⟨φ', hφ', hmove p φ g l q φ' g' hφ hmoves hR hJ⟩

/-- A run inside a guard, without a history. -/
theorem watched_of_reach {g : Guard ι C σ χ η} (h : M.Reach g p q) :
    Watched M (fun p _ l _ _ => g.allows p l) p () q () := by
  induction h with
  | here => exact .here
  | step _ hg hs ih => exact .step ih hs hg

end Watched

/-! ## Time -/

section Timed

variable [DecidableEq ι] (clock : σ → Nat) (limit : C → Option Nat)

/-- When the command a thread waits for was issued, if it is in the middle of a
body. -/
abbrev Since (ι : Type) := ι → Option Nat

/-- No command that is pending has overrun its limit. -/
def OnTime (p : Pool ι C A ε α σ) (g : Since ι) : Prop :=
  ∀ i c k t d, p.prog i = some (.call c k) → g i = some t → limit c = some d →
    clock p.state ≤ t + d

/-- A thread's command takes effect after it was issued, and its answer arrives
within the limit; then the next one is issued. -/
def Answered (p : Pool ι C A ε α σ) (g : Since ι) (i : ι) (q : Pool ι C A ε α σ)
    (g' : Since ι) : Prop :=
  (∀ t, g i = some t → t ≤ clock p.state) ∧
    ∃ t', g' = Function.update g i (some t') ∧ clock q.state ≤ t' ∧
      ∀ c k d, p.prog i = some (.call c k) → limit c = some d →
        t' ≤ (g i).getD (clock p.state) + d

def Timely (p : Pool ι C A ε α σ) (g : Since ι) (l : Label ι χ η) (q : Pool ι C A ε α σ)
    (g' : Since ι) : Prop :=
  (match l with
    | .act i _ => Answered clock limit p g i q g'
    | .loop i => g' = Function.update g i none
    | .crash _ => g' = g
    | .env _ => g' = g) ∧ OnTime clock limit q g'

/-! ### Timed runs that can be evaluated -/

/-- No one of these threads is late. -/
def onTimeAmong (threads : List ι) (p : Pool ι C A ε α σ) (g : Since ι) : Bool :=
  threads.all fun i =>
    match p.prog i, g i with
    | some (.call c _), some t => (limit c).all fun d => decide (clock p.state ≤ t + d)
    | _, _ => true

/-- The answer to the pending command may arrive at `t'`. -/
def answeredAt (p : Pool ι C A ε α σ) (g : Since ι) (i : ι) (q : Pool ι C A ε α σ) (t' : Nat) :
    Bool :=
  (g i).all (fun t => decide (t ≤ clock p.state)) && decide (clock q.state ≤ t') &&
    match p.prog i with
    | some (.call c _) => (limit c).all fun d => decide (t' ≤ (g i).getD (clock p.state) + d)
    | _ => true

/-- One step, with the time at which an answer arrives. -/
def timedStep (M : Machine ι C A ε α σ χ η) (threads : List ι) (p : Pool ι C A ε α σ)
    (g : Since ι) (l : Label ι χ η × Nat) : Option (Pool ι C A ε α σ × Since ι) :=
  (M.step p l.1).bind fun q =>
    match l.1 with
    | .act i _ =>
      let g' := Function.update g i (some l.2)
      if i ∈ threads ∧ answeredAt clock limit p g i q l.2 = true ∧
          onTimeAmong clock limit threads q g' = true then some (q, g') else none
    | .loop i =>
      let g' := Function.update g i none
      if onTimeAmong clock limit threads q g' = true then some (q, g') else none
    | _ => if onTimeAmong clock limit threads q g = true then some (q, g) else none

def timedRun (M : Machine ι C A ε α σ χ η) (threads : List ι) :
    Pool ι C A ε α σ → Since ι → List (Label ι χ η × Nat) → Option (Pool ι C A ε α σ × Since ι)
  | p, g, [] => some (p, g)
  | p, g, l :: ls =>
    (timedStep clock limit M threads p g l).bind fun o => timedRun M threads o.1 o.2 ls

variable {clock limit} {M : Machine ι C A ε α σ χ η} {threads : List ι} {p q : Pool ι C A ε α σ}
  {g g' : Since ι}

omit [DecidableEq ι] in
theorem onTime_of_among (h : onTimeAmong clock limit threads q g = true)
    (hg : ∀ i, i ∉ threads → g i = none) : OnTime clock limit q g := by
  intro i c k t d hi ht hd
  have hmem : i ∈ threads := by
    by_contra hnot
    rw [hg i hnot] at ht
    cases ht
  have hi' := List.all_eq_true.mp h i hmem
  simpa [hi, ht, hd] using hi'

theorem answered_of_answeredAt {i : ι} {t' : Nat}
    (h : answeredAt clock limit p g i q t' = true) :
    Answered clock limit p g i q (Function.update g i (some t')) := by
  simp only [answeredAt, Bool.and_eq_true, decide_eq_true_eq] at h
  obtain ⟨⟨hpast, hge⟩, hle⟩ := h
  refine ⟨fun t ht => ?_, t', rfl, hge, fun c k d hp hd => ?_⟩
  · simpa [ht] using hpast
  · simpa [hp, hd] using hle

/-- What the evaluation of a step accepts is a step of a timed run. -/
theorem timely_of_timedStep {l : Label ι χ η × Nat}
    (h : timedStep clock limit M threads p g l = some (q, g'))
    (hg : ∀ i, i ∉ threads → g i = none) :
    M.step p l.1 = some q ∧ Timely clock limit p g l.1 q g' ∧ ∀ i, i ∉ threads → g' i = none := by
  obtain ⟨q', hs, h⟩ := Option.bind_eq_some_iff.mp h
  obtain ⟨l, t'⟩ := l
  have hsame : (if onTimeAmong clock limit threads q' g = true then some (q', g) else none) =
      some (q, g') → q' = q ∧ g = g' ∧ OnTime clock limit q g' := by
    intro h
    split at h
    next hc =>
      cases h
      exact ⟨rfl, rfl, onTime_of_among hc hg⟩
    next => cases h
  cases l with
  | act i ch =>
    simp only at h
    split at h
    next hc =>
      cases h
      obtain ⟨hmem, hanswer, htime⟩ := hc
      have hg' : ∀ j, j ∉ threads → Function.update g i (some t') j = none := by
        intro j hj
        have hji : j ≠ i := fun hji => hj (hji ▸ hmem)
        rw [Function.update_of_ne hji]
        exact hg j hj
      exact ⟨hs, ⟨answered_of_answeredAt hanswer, onTime_of_among htime hg'⟩, hg'⟩
    next => cases h
  | loop i =>
    simp only at h
    split at h
    next hc =>
      cases h
      have hg' : ∀ j, j ∉ threads → Function.update g i none j = none := by
        intro j hj
        by_cases hji : j = i
        · subst hji
          exact Function.update_self _ _ _
        · rw [Function.update_of_ne hji]
          exact hg j hj
      exact ⟨hs, ⟨rfl, onTime_of_among hc hg'⟩, hg'⟩
    next => cases h
  | crash i =>
    obtain ⟨rfl, rfl, htime⟩ := hsame h
    exact ⟨hs, ⟨rfl, htime⟩, hg⟩
  | env e =>
    obtain ⟨rfl, rfl, htime⟩ := hsame h
    exact ⟨hs, ⟨rfl, htime⟩, hg⟩

theorem watched_of_timedRun {p₀ : Pool ι C A ε α σ} {g₀ : Since ι} {ls : List (Label ι χ η × Nat)}
    (hp : Watched M (Timely clock limit) p₀ g₀ p g) (hg : ∀ i, i ∉ threads → g i = none)
    (h : timedRun clock limit M threads p g ls = some (q, g')) :
    Watched M (Timely clock limit) p₀ g₀ q g' := by
  induction ls generalizing p g with
  | nil =>
    cases h
    exact hp
  | cons l ls ih =>
    obtain ⟨⟨p', g''⟩, hstep, hrest⟩ := Option.bind_eq_some_iff.mp h
    obtain ⟨hs, htimely, hg''⟩ := timely_of_timedStep hstep hg
    exact ih (.step hp hs htimely) hg'' hrest

end Timed

end Concurrent
