/-
Optimistic updates of one shared value.

A round watches the value, reads it, computes a new one and writes it, and the write
goes through only if nobody wrote since the round began to watch.  A call tries a
bounded number of rounds.

`serializable` says that the value is at all times the result of the updates that
went through, one after another, and `gave_up` that a call whose rounds were used up
was overtaken in each of them by a different call.
-/
import AdaptiveGateway.Concurrent.Pool
import Mathlib.Data.List.Forall2

namespace Concurrent

namespace Watch

variable {ι V ε : Type}

inductive Cmd (V : Type) where
  | watch
  | get
  | exec (v : V)

abbrev Ans : Cmd V → Type
  | .get => V
  | _ => Unit

inductive Fault (ε : Type) where
  /-- The value was written since it was watched. -/
  | conflict
  | unavailable
  | raised (e : ε)

inductive Choice where
  | up
  | down
deriving DecidableEq

/-- A round that failed: the number of writes when it began to watch, and when it was
turned down. -/
structure Attempt where
  watch : Nat
  exec : Nat

/-- The value with what the store keeps for each call.  The last three fields are
history: the calls in the order in which their writes went through, the failed rounds
of each call, and the number of writes at its first and at its latest command. -/
structure Cell (ι V : Type) where
  value : V
  writes : Nat := 0
  watched : ι → Option Nat := fun _ => none
  commits : List ι := []
  attempts : ι → List Attempt := fun _ => []
  span : ι → Option (Nat × Nat) := fun _ => none

/-! ## The store -/

namespace Cell

variable [DecidableEq ι]

def touch (i : ι) (s : Cell ι V) : Cell ι V :=
  { s with
    span := Function.update s.span i
      (some (((s.span i).map Prod.fst).getD s.writes, s.writes)) }

def watch (i : ι) (s : Cell ι V) : Cell ι V :=
  { s with watched := Function.update s.watched i (some s.writes) }

def write (i : ι) (v : V) (s : Cell ι V) : Cell ι V :=
  { s with
    value := v
    writes := s.writes + 1
    watched := Function.update s.watched i none
    commits := s.commits ++ [i] }

def turnDown (i : ι) (w : Nat) (s : Cell ι V) : Cell ι V :=
  { s with
    watched := Function.update s.watched i none
    attempts := Function.update s.attempts i (s.attempts i ++ [⟨w, s.writes⟩]) }

end Cell

def exec [DecidableEq ι] (i : ι) :
    (c : Cmd V) → Choice → Cell ι V → Option (Except (Fault ε) (Ans c) × Cell ι V)
  | _, .down, s => some (.error .unavailable, s)
  | .watch, .up, s => some (.ok (), (s.watch i).touch i)
  | .get, .up, s => some (.ok s.value, s.touch i)
  | .exec v, .up, s =>
    match s.watched i with
    | none => some (.ok (), (s.write i v).touch i)
    | some w =>
      if w = s.writes then some (.ok (), (s.write i v).touch i)
      else some (.error .conflict, (s.turnDown i w).touch i)

/-! ## A call -/

def await (c : Cmd V) : Prog (Cmd V) Ans (Fault ε) (Ans c) := Prog.issue c

def round (f : V → Except ε V) : Prog (Cmd V) Ans (Fault ε) Unit := do
  await .watch
  let v ← await .get
  let v' ← Prog.ofExcept ((f v).mapError .raised)
  await (.exec v')

/-- At most `n` rounds.  The store going away ends the call without a word. -/
def retry (f : V → Except ε V) : Nat → Prog (Cmd V) Ans (Fault ε) Unit
  | 0 => pure ()
  | n + 1 => (round f).except fun
    | .conflict => some (retry f n)
    | .unavailable => some (pure ())
    | .raised _ => none

/-- Call `i` makes the update `f i`, in at most `n` rounds. -/
def machine [DecidableEq ι] (f : ι → V → Except ε V) (n : Nat) :
    Machine ι (Cmd V) Ans (Fault ε) Unit (Cell ι V) Choice Empty where
  exec := exec
  env e _ := e.elim
  drop _ s := s
  boot i := retry (f i) n
  again _ _ := none

/-- The store answers every command. -/
def available : Guard ι (Cmd V) (Cell ι V) Choice Empty where
  act _ _ ch _ := ch = .up
  crash _ _ := True
  env _ _ := True

/-! ## What holds between two commands -/

section Invariant

variable (f : ι → V → Except ε V) (v₀ : V)

/-- The updates of the calls, one after another. -/
def replay (is : List ι) : Except ε V := is.foldlM (fun v i => f i v) v₀

theorem replay_concat {is : List ι} {v : V} (h : replay f v₀ is = .ok v) (i : ι) :
    replay f v₀ (is ++ [i]) = f i v := by
  rw [replay, List.foldlM_append]
  rw [replay] at h
  rw [h]
  show (f i v >>= fun v => pure v) = f i v
  exact bind_pure (f i v)

structure Sound (s : Cell ι V) : Prop where
  count : s.writes = s.commits.length
  nodup : s.commits.Nodup
  value : replay f v₀ s.commits = .ok s.value

end Invariant

/-- What the other calls leave alone of call `i`. -/
structure Rely (i : ι) (s t : Cell ι V) : Prop where
  watched : t.watched i = s.watched i
  attempts : t.attempts i = s.attempts i
  span : t.span i = s.span i
  mem : i ∈ t.commits ↔ i ∈ s.commits
  writes : s.writes ≤ t.writes
  value : t.writes = s.writes → t.value = s.value

theorem Rely.refl (i : ι) (s : Cell ι V) : Rely i s s :=
  ⟨rfl, rfl, rfl, Iff.rfl, Nat.le_refl _, fun _ => rfl⟩

theorem Rely.trans {i : ι} {s t u : Cell ι V} (h : Rely i s t) (h' : Rely i t u) : Rely i s u where
  watched := h'.watched.trans h.watched
  attempts := h'.attempts.trans h.attempts
  span := h'.span.trans h.span
  mem := h'.mem.trans h.mem
  writes := Nat.le_trans h.writes h'.writes
  value hw := by
    have h₁ := h.writes
    have h₂ := h'.writes
    rw [h'.value (by omega), h.value (by omega)]

/-- Call `i` has had `k` rounds, all of them turned down.  The rounds do not overlap,
each saw a write, and all lie between its first and its latest command. -/
structure Failed (i : ι) (k : Nat) (s : Cell ι V) : Prop where
  absent : i ∉ s.commits
  count : (s.attempts i).length = k
  apart : (s.attempts i).Pairwise fun a b => a.exec ≤ b.watch
  inside : ∀ a ∈ s.attempts i, a.watch < a.exec ∧ a.exec ≤ s.writes ∧
    ∃ b e, s.span i = some (b, e) ∧ b ≤ a.watch ∧ a.exec ≤ e
  started : ∀ b e, s.span i = some (b, e) → b ≤ s.writes

/-- Call `i` is in a round that began to watch after `w` writes. -/
structure Watching (i : ι) (k w : Nat) (s : Cell ι V) : Prop where
  failed : Failed i k s
  watched : s.watched i = some w
  le : w ≤ s.writes
  after : ∀ a ∈ s.attempts i, a.exec ≤ w
  began : ∃ b e, s.span i = some (b, e) ∧ b ≤ w

section Step

variable {i j : ι} {k w : Nat} {s t : Cell ι V} {v v' : V}

theorem Failed.mono (h : Failed i k s) (hst : Rely i s t) : Failed i k t where
  absent := fun hi => h.absent (hst.mem.mp hi)
  count := by rw [hst.attempts]; exact h.count
  apart := by rw [hst.attempts]; exact h.apart
  inside a ha := by
    rw [hst.attempts] at ha
    obtain ⟨hlt, hle, hspan⟩ := h.inside a ha
    rw [hst.span]
    exact ⟨hlt, Nat.le_trans hle hst.writes, hspan⟩
  started b e hspan := by
    rw [hst.span] at hspan
    exact Nat.le_trans (h.started b e hspan) hst.writes

theorem Watching.mono (h : Watching i k w s) (hst : Rely i s t) : Watching i k w t where
  failed := h.failed.mono hst
  watched := hst.watched.trans h.watched
  le := Nat.le_trans h.le hst.writes
  after := by rw [hst.attempts]; exact h.after
  began := by rw [hst.span]; exact h.began

theorem Sound.frame {f : ι → V → Except ε V} {v₀ : V} (h : Sound f v₀ s)
    (hvalue : t.value = s.value) (hcommits : t.commits = s.commits) (hwrites : t.writes = s.writes) :
    Sound f v₀ t where
  count := by rw [hwrites, hcommits]; exact h.count
  nodup := by rw [hcommits]; exact h.nodup
  value := by rw [hvalue, hcommits]; exact h.value

variable [DecidableEq ι]

theorem Cell.touch_span_of_ne (hij : j ≠ i) : (s.touch i).span j = s.span j :=
  Function.update_of_ne hij _ _

theorem Cell.touch_span : (s.touch i).span i =
    some (((s.span i).map Prod.fst).getD s.writes, s.writes) :=
  Function.update_self _ _ _

theorem rely_watch (hij : j ≠ i) : Rely j s ((s.watch i).touch i) where
  watched := Function.update_of_ne hij _ _
  attempts := rfl
  span := Cell.touch_span_of_ne hij
  mem := Iff.rfl
  writes := Nat.le_refl _
  value _ := rfl

theorem rely_get (hij : j ≠ i) : Rely j s (s.touch i) where
  watched := rfl
  attempts := rfl
  span := Cell.touch_span_of_ne hij
  mem := Iff.rfl
  writes := Nat.le_refl _
  value _ := rfl

theorem rely_turnDown (hij : j ≠ i) : Rely j s ((s.turnDown i w).touch i) where
  watched := Function.update_of_ne hij _ _
  attempts := Function.update_of_ne hij _ _
  span := Cell.touch_span_of_ne hij
  mem := Iff.rfl
  writes := Nat.le_refl _
  value _ := rfl

theorem rely_write (hij : j ≠ i) : Rely j s ((s.write i v).touch i) where
  watched := Function.update_of_ne hij _ _
  attempts := rfl
  span := Cell.touch_span_of_ne hij
  mem := by
    show j ∈ s.commits ++ [i] ↔ j ∈ s.commits
    simp [hij]
  writes := Nat.le_succ _
  value h := absurd h (Nat.succ_ne_self _)

/-- A command moves the end of the span and keeps its beginning. -/
theorem Failed.touch_span (h : Failed i k s) :
    ∃ b, (s.touch i).span i = some (b, s.writes) ∧ b ≤ s.writes := by
  rw [Cell.touch_span]
  cases hspan : s.span i with
  | none => exact ⟨s.writes, rfl, Nat.le_refl _⟩
  | some x => exact ⟨x.1, rfl, h.started x.1 x.2 hspan⟩

theorem Failed.touch (h : Failed i k s) : Failed i k (s.touch i) where
  absent := h.absent
  count := h.count
  apart := h.apart
  inside a ha := by
    obtain ⟨hlt, hle, b, e, hspan, hb, -⟩ := h.inside a ha
    refine ⟨hlt, hle, b, s.writes, ?_, hb, hle⟩
    rw [Cell.touch_span, hspan]
    rfl
  started b e hspan := by
    obtain ⟨b', hspan', hb'⟩ := h.touch_span
    rw [hspan'] at hspan
    cases hspan
    exact hb'

theorem Failed.watch (h : Failed i k s) : Watching i k s.writes ((s.watch i).touch i) where
  failed := Failed.touch ⟨h.absent, h.count, h.apart, h.inside, h.started⟩
  watched := Function.update_self _ _ _
  le := Nat.le_refl _
  after a ha := (h.inside a ha).2.1
  began := by
    obtain ⟨b, hspan, hb⟩ := h.touch_span
    exact ⟨b, s.writes, hspan, hb⟩

theorem Watching.get (h : Watching i k w s) : Watching i k w (s.touch i) where
  failed := h.failed.touch
  watched := h.watched
  le := h.le
  after := h.after
  began := by
    obtain ⟨b, e, hspan, hb⟩ := h.began
    refine ⟨b, s.writes, ?_, hb⟩
    rw [Cell.touch_span, hspan]
    rfl

theorem Watching.turnDown (h : Watching i k w s) (hw : w ≠ s.writes) :
    Failed i (k + 1) ((s.turnDown i w).touch i) := by
  have hlt : w < s.writes := Nat.lt_of_le_of_ne h.le hw
  have hattempts : (s.turnDown i w).attempts i = s.attempts i ++ [⟨w, s.writes⟩] :=
    Function.update_self _ _ _
  obtain ⟨b, e, hspan, hb⟩ := h.began
  have hspan' : ((s.turnDown i w).touch i).span i = some (b, s.writes) := by
    rw [Cell.touch_span]
    show some (((s.span i).map Prod.fst).getD s.writes, s.writes) = _
    rw [hspan]
    rfl
  refine ⟨h.failed.absent, ?_, ?_, ?_, ?_⟩
  · show ((s.turnDown i w).attempts i).length = k + 1
    rw [hattempts, List.length_append, h.failed.count]
    rfl
  · show ((s.turnDown i w).attempts i).Pairwise _
    rw [hattempts, List.pairwise_append]
    refine ⟨h.failed.apart, List.pairwise_singleton _ _, ?_⟩
    intro a ha c hc
    rw [List.mem_singleton.mp hc]
    exact h.after a ha
  · intro a ha
    have ha : a ∈ (s.turnDown i w).attempts i := ha
    rw [hattempts, List.mem_append, List.mem_singleton] at ha
    rcases ha with ha | rfl
    · obtain ⟨hlt', hle', b', e', hspan'', hb', -⟩ := h.failed.inside a ha
      rw [hspan] at hspan''
      cases hspan''
      exact ⟨hlt', hle', b, s.writes, hspan', hb', hle'⟩
    · exact ⟨hlt, Nat.le_refl _, b, s.writes, hspan', hb, Nat.le_refl _⟩
  · intro b' e' hspan''
    rw [hspan'] at hspan''
    cases hspan''
    exact Nat.le_trans hb h.le

theorem Sound.write {f : ι → V → Except ε V} {v₀ : V} (h : Sound f v₀ s) (hi : i ∉ s.commits)
    (hv : f i s.value = .ok v) : Sound f v₀ ((s.write i v).touch i) where
  count := by
    show s.writes + 1 = (s.commits ++ [i]).length
    rw [List.length_append, h.count]
    rfl
  nodup := by
    show (s.commits ++ [i]).Nodup
    rw [List.nodup_append]
    refine ⟨h.nodup, List.pairwise_singleton _ i, ?_⟩
    intro a ha c hc
    rw [List.mem_singleton.mp hc]
    rintro rfl
    exact hi ha
  value := (replay_concat f v₀ h.value i).trans hv

end Step

/-! ## The proof of a call -/

section Proof

variable [DecidableEq ι] (f : ι → V → Except ε V) (v₀ : V) (n : Nat)

/-- The update cannot be computed from a value that the cell had. -/
def Raises (i : ι) (e : ε) : Prop := ∃ is v, replay f v₀ is = .ok v ∧ f i v = .error e

def contract : Contract (machine f n) available where
  I := Sound f v₀
  R := Rely
  G i s t := ∀ j, j ≠ i → Rely j s t
  Q i r s := match r with
    | .ok _ => i ∈ s.commits ∨ Failed i n s
    | .error .conflict => False
    | .error .unavailable => False
    | .error (.raised e) => Raises f v₀ i e
  refl := Rely.refl
  trans _ _ _ _ := Rely.trans
  others _ j _ _ hij _ _ h := h j (Ne.symm hij)
  env e := e.elim
  crash _ s _ hI := ⟨hI, fun j _ => Rely.refl j s⟩

variable {f v₀ n} {i : ι} {k w : Nat} {s : Cell ι V}

/-- How a round ends. -/
def Ended (f : ι → V → Except ε V) (v₀ : V) (i : ι) (k : Nat) :
    Except (Fault ε) Unit → Cell ι V → Prop
  | .ok _, t => i ∈ t.commits
  | .error .conflict, t => Failed i (k + 1) t
  | .error .unavailable, _ => False
  | .error (.raised e), _ => Raises f v₀ i e

theorem wp_watch (h : Failed i k s) :
    (await .watch : Prog (Cmd V) Ans (Fault ε) Unit).wp ((contract f v₀ n).pact i)
      (fun r t => r = .ok () ∧ ∃ w, Watching i k w t) s := by
  apply Prog.wp_issue
  intro r s' hr
  obtain ⟨ch, rfl, hI, he⟩ := hr
  cases he
  refine ⟨hI.frame rfl rfl rfl, fun j hj => rely_watch hj, fun t _ hst => ?_⟩
  exact ⟨rfl, s.writes, h.watch.mono hst⟩

theorem wp_get (h : Watching i k w s) :
    (await .get : Prog (Cmd V) Ans (Fault ε) V).wp ((contract f v₀ n).pact i)
      (fun r t => ∃ v, r = .ok v ∧ Watching i k w t ∧ (t.writes = w → t.value = v) ∧
        ∃ is, replay f v₀ is = .ok v) s := by
  apply Prog.wp_issue
  intro r s' hr
  obtain ⟨ch, rfl, hI, he⟩ := hr
  cases he
  refine ⟨hI.frame rfl rfl rfl, fun j hj => rely_get hj, fun t _ hst => ?_⟩
  refine ⟨s.value, rfl, h.get.mono hst, ?_, s.commits, hI.value⟩
  intro hw
  have hle := hst.writes
  have hle' : w ≤ s.writes := h.le
  exact hst.value (by show t.writes = s.writes; change s.writes ≤ t.writes at hle; omega)

theorem wp_exec {v v' : V} (h : Watching i k w s) (hv : s.writes = w → s.value = v)
    (hf : f i v = .ok v') :
    (await (.exec v') : Prog (Cmd V) Ans (Fault ε) Unit).wp ((contract f v₀ n).pact i)
      (Ended f v₀ i k) s := by
  apply Prog.wp_issue
  intro r s' hr
  obtain ⟨ch, rfl, hI, he⟩ := hr
  simp only [machine, exec, h.watched] at he
  split at he
  next hw =>
    cases he
    have hf' : f i s.value = .ok v' := by rw [hv hw.symm]; exact hf
    refine ⟨hI.write h.failed.absent hf', fun j hj => rely_write hj, fun t _ hst => ?_⟩
    exact hst.mem.mpr (List.mem_append_right _ List.mem_cons_self)
  next hw =>
    cases he
    refine ⟨hI.frame rfl rfl rfl, fun j hj => rely_turnDown hj, fun t _ hst => ?_⟩
    exact (h.turnDown hw).mono hst

theorem wp_round (h : Failed i k s) :
    (round (f i)).wp ((contract f v₀ n).pact i) (Ended f v₀ i k) s := by
  refine Prog.wp_seq (wp_watch h) (fun e t ht => by cases ht.1) ?_
  rintro - t ⟨-, w, ht⟩
  refine Prog.wp_seq (wp_get ht) (fun e u hu => by obtain ⟨v, hv, -⟩ := hu; cases hv) ?_
  rintro v u ⟨v', hv, hu, hval, is, his⟩
  cases hv
  cases hf : f i v with
  | error e =>
    show Raises f v₀ i e
    exact ⟨is, v, his, hf⟩
  | ok v' => exact wp_exec hu hval hf

theorem wp_retry (m : Nat) : ∀ k s, k + m = n → Failed i k s →
    (retry (f i) m).wp ((contract f v₀ n).pact i) ((contract f v₀ n).Q i) s := by
  induction m with
  | zero =>
    intro k s hk h
    obtain rfl : k = n := by omega
    exact .inr h
  | succ m ih =>
    intro k s hk h
    refine Prog.wp_except (Prog.wp_mono (fun r t hr => ?_) (wp_round h))
    match r, hr with
    | .ok _, hr => exact .inl hr
    | .error .conflict, hr => exact ih (k + 1) t (by omega) hr
    | .error .unavailable, hr => exact hr.elim
    | .error (.raised e), hr => exact hr

end Proof

/-! ## Whole runs -/

/-- The calls whose writes were the `a`-th to the last before the `b`-th. -/
def Cell.window (s : Cell ι V) (a b : Nat) : List ι := (s.commits.take b).drop a

/-- One call out of each of several windows that do not overlap, in order. -/
theorem exists_overtakers (L : List ι) : ∀ (as : List Attempt) (b : Nat),
    as.Pairwise (fun a c => a.exec ≤ c.watch) →
    (∀ a ∈ as, b ≤ a.watch ∧ a.watch < a.exec ∧ a.exec ≤ L.length) →
    ∃ js : List ι, List.Forall₂ (fun a j => j ∈ (L.take a.exec).drop a.watch) as js ∧
      js.Sublist (L.drop b) := by
  intro as
  induction as with
  | nil =>
    intro b _ _
    exact ⟨[], .nil, List.nil_sublist _⟩
  | cons a as ih =>
    intro b hap hin
    obtain ⟨hb, hlt, hle⟩ := hin a List.mem_cons_self
    obtain ⟨hfirst, hap'⟩ := List.pairwise_cons.mp hap
    obtain ⟨js, hjs, hsub⟩ := ih a.exec hap' fun c hc =>
      ⟨hfirst c hc, (hin c (List.mem_cons_of_mem a hc)).2⟩
    have hw : a.watch < L.length := by omega
    refine ⟨L[a.watch] :: js, .cons ?_ hjs, ?_⟩
    · refine List.mem_of_getElem? (i := 0) ?_
      rw [List.getElem?_drop, List.getElem?_take_of_lt (by omega)]
      exact List.getElem?_eq_getElem hw
    · have hdrop : L.drop a.watch = L[a.watch] :: L.drop (a.watch + 1) := List.drop_eq_getElem_cons hw
      have hlater : (L.drop a.exec).Sublist (L.drop (a.watch + 1)) :=
        List.drop_sublist_drop_left L (by omega)
      have hearlier : (L.drop a.watch).Sublist (L.drop b) := List.drop_sublist_drop_left L hb
      refine List.Sublist.trans ?_ hearlier
      rw [hdrop]
      exact (hsub.trans hlater).cons_cons _

theorem failed_start (v₀ : V) (i : ι) : Failed i 0 ({ value := v₀ } : Cell ι V) where
  absent := List.not_mem_nil
  count := rfl
  apart := List.Pairwise.nil
  inside a ha := absurd ha List.not_mem_nil
  started b e h := by cases h

/-- Each failed round has a write of its own, by another call, between the first and
the latest command of the call. -/
theorem Failed.overtaken {i : ι} {k : Nat} {s : Cell ι V} (h : Failed i k s)
    (hcount : s.writes = s.commits.length) :
    ∃ js : List ι, List.Forall₂ (fun a j => j ∈ s.window a.watch a.exec) (s.attempts i) js ∧
      js.Sublist s.commits ∧ ∀ b e, s.span i = some (b, e) → js.Sublist (s.window b e) := by
  cases hspan : s.span i with
  | none =>
    have hnil : s.attempts i = [] := by
      by_contra hne
      obtain ⟨a, ha⟩ := List.exists_mem_of_ne_nil _ hne
      obtain ⟨-, -, b, e, hspan', -⟩ := h.inside a ha
      rw [hspan] at hspan'
      cases hspan'
    rw [hnil]
    exact ⟨[], .nil, List.nil_sublist _, fun b e h => by cases h⟩
  | some x =>
    obtain ⟨b, e⟩ := x
    have hin : ∀ a ∈ s.attempts i, b ≤ a.watch ∧ a.watch < a.exec ∧
        a.exec ≤ (s.commits.take e).length := by
      intro a ha
      obtain ⟨hlt, hle, b', e', hspan', hb, he⟩ := h.inside a ha
      rw [hspan] at hspan'
      cases hspan'
      rw [List.length_take]
      omega
    obtain ⟨js, hjs, hsub⟩ := exists_overtakers (s.commits.take e) (s.attempts i) b h.apart hin
    refine ⟨js, hjs.imp fun a j hj => ?_, ?_, ?_⟩
    · rw [List.take_take, Nat.min_comm, ← List.take_take] at hj
      exact ((List.take_sublist e (s.commits.take a.exec)).drop a.watch).subset hj
    · exact hsub.trans ((List.drop_sublist b _).trans (List.take_sublist e _))
    · intro b' e' h
      cases h
      exact hsub

section Runs

variable [DecidableEq ι] {f : ι → V → Except ε V} {v₀ : V} {n : Nat}
  {q : Pool ι (Cmd V) Ans (Fault ε) Unit (Cell ι V)}

variable (hq : (machine f n).Reach available ((machine f n).start { value := v₀ }) q)
include hq

theorem reach_sound : Sound f v₀ q.state ∧
    ∀ i p, q.prog i = some p → (contract f v₀ n).Kept i q.state p := by
  refine (contract f v₀ n).sound ?_ ?_ ?_ hq
  · exact ⟨rfl, List.Pairwise.nil, rfl⟩
  · intro i t _ hst
    exact wp_retry n 0 t (Nat.zero_add n) ((failed_start v₀ i).mono hst)
  · intro i r p t h
    cases h

/-- The value is that of the updates that went through, one after another, and no
call goes through twice. -/
theorem serializable : replay f v₀ q.state.commits = .ok q.state.value ∧ q.state.commits.Nodup :=
  ⟨(reach_sound hq).1.value, (reach_sound hq).1.nodup⟩

theorem ended {i : ι} {r : Except (Fault ε) Unit} (hi : q.prog i = some (Prog.ofExcept r)) :
    (contract f v₀ n).Q i r q.state := by
  have h := (reach_sound hq).2 i _ hi q.state (reach_sound hq).1 (Rely.refl i _)
  cases r <;> exact h

/-- A call that has used up its rounds was overtaken in each of them by another one,
and no two of these are the same. -/
theorem gave_up {i : ι} (hi : q.prog i = some (.ret ())) (habsent : i ∉ q.state.commits) :
    (q.state.attempts i).length = n ∧
    ∃ js : List ι, List.Forall₂ (fun a j => j ∈ q.state.window a.watch a.exec)
        (q.state.attempts i) js ∧ js.Nodup ∧ i ∉ js ∧
      ∀ b e, q.state.span i = some (b, e) → js.Sublist (q.state.window b e) := by
  have hsound := (reach_sound hq).1
  have hfailed : Failed i n q.state := by
    have hend : i ∈ q.state.commits ∨ Failed i n q.state := ended hq (r := .ok ()) hi
    exact hend.resolve_left habsent
  obtain ⟨js, hjs, hcommits, hsub⟩ := hfailed.overtaken hsound.count
  exact ⟨hfailed.count, js, hjs, hsound.nodup.sublist hcommits,
    fun hmem => habsent (hcommits.subset hmem), hsub⟩

/-- A call does not fail while fewer than `n` others go through. -/
theorem goes_through {i : ι} (hi : q.prog i = some (.ret ())) (hn : 0 < n)
    (hfew : ∀ b e, q.state.span i = some (b, e) →
      ((q.state.window b e).filter fun j => decide (j ≠ i)).length < n) :
    i ∈ q.state.commits := by
  by_contra habsent
  obtain ⟨hlen, js, hjs, -, hmem, hsub⟩ := gave_up hq hi habsent
  have hfailed : i ∈ q.state.commits ∨ Failed i n q.state := ended hq (r := .ok ()) hi
  obtain ⟨a, ha⟩ := List.exists_mem_of_length_pos (hlen ▸ hn)
  obtain ⟨-, -, b, e, hspan, -⟩ := (hfailed.resolve_left habsent).inside a ha
  have hothers : js.Sublist ((q.state.window b e).filter fun j => decide (j ≠ i)) := by
    have hself : js.filter (fun j => decide (j ≠ i)) = js := by
      rw [List.filter_eq_self]
      intro j hj
      exact decide_eq_true fun hji => hmem (hji ▸ hj)
    have hfilter := (hsub b e hspan).filter fun j => decide (j ≠ i)
    rwa [hself] at hfilter
  have hle := hothers.length_le
  rw [← hjs.length_eq, hlen] at hle
  exact absurd (hfew b e hspan) (Nat.not_lt.mpr hle)

end Runs

/-- A call that cannot compute its update ends in the exception, with nobody in its way. -/
theorem raises_alone [DecidableEq ι] {f : ι → V → Except ε V} {v₀ : V} {i : ι} {e : ε}
    (h : f i v₀ = .error e) (n : Nat) :
    ∃ q, (machine f (n + 1)).Reach available ((machine f (n + 1)).start { value := v₀ }) q ∧
      q.prog i = some (.raise (.raised e)) ∧ q.state.value = v₀ ∧ q.state.commits = [] ∧
      q.state.attempts i = [] := by
  have hwatch := (Machine.Reach.here (M := machine f (n + 1)) (g := available)
    (p := (machine f (n + 1)).start { value := v₀ })).act i .up rfl rfl rfl
  have hget := hwatch.act i .up (Function.update_self i _ _) rfl rfl
  refine ⟨_, hget, ?_, rfl, rfl, rfl⟩
  show Function.update _ i _ i = _
  rw [Function.update_self]
  show some (Prog.except (Prog.bind (Prog.ofExcept ((f i v₀).mapError Fault.raised)) _) _) = _
  rw [h]
  rfl

/-! ## Runs that overtake -/

section Overtaken

variable [DecidableEq ι] {f : ι → V → Except ε V} {n m : Nat} {i : ι} {v : V}
  {p q : Pool ι (Cmd V) Ans (Fault ε) Unit (Cell ι V)}

/-- A round that has read the value, before its write. -/
def writing (f : ι → V → Except ε V) (i : ι) (m : Nat) (v : V) : Prog (Cmd V) Ans (Fault ε) Unit :=
  (await (.exec v) : Prog (Cmd V) Ans (Fault ε) Unit).except fun
    | .conflict => some (retry (f i) m)
    | .unavailable => some (pure ())
    | .raised _ => none

variable (h : (machine f n).Reach available p q)
include h

theorem reach_read (hp : q.prog i = some (retry (f i) (m + 1))) (hf : f i q.state.value = .ok v) :
    (machine f n).Reach available p ⟨((q.state.watch i).touch i).touch i,
      Function.update q.prog i (some (writing f i m v))⟩ := by
  have hget := (h.act i .up hp rfl rfl).act i .up (Function.update_self i _ _) rfl rfl
  rw [Function.update_idem] at hget
  refine Eq.mp (congrArg _ ?_) hget
  congr 3
  show Prog.except (Prog.bind (Prog.ofExcept ((f i q.state.value).mapError Fault.raised)) _) _ = _
  rw [hf]
  rfl

theorem reach_write (hp : q.prog i = some (writing f i m v))
    (hw : q.state.watched i = some q.state.writes) :
    (machine f n).Reach available p ⟨(q.state.write i v).touch i,
      Function.update q.prog i (some (.ret ()))⟩ := by
  have hexec : (machine f n).exec i (.exec v) .up q.state =
      some (.ok (), (q.state.write i v).touch i) := by
    simp only [machine, exec, hw, if_true]
  exact h.act i .up hp rfl hexec

theorem reach_turnDown {w : Nat} (hp : q.prog i = some (writing f i m v))
    (hw : q.state.watched i = some w) (hne : w ≠ q.state.writes) :
    (machine f n).Reach available p ⟨(q.state.turnDown i w).touch i,
      Function.update q.prog i (some (retry (f i) m))⟩ := by
  have hexec : (machine f n).exec i (.exec v) .up q.state =
      some (.error .conflict, (q.state.turnDown i w).touch i) := by
    simp only [machine, exec, hw, if_neg hne]
  exact h.act i .up hp rfl hexec

end Overtaken

/-- Call `j` goes through between the read and the write of call `i`, which is turned down and
goes through in its next round. -/
theorem exists_overtaken [DecidableEq ι] {f : ι → V → Except ε V} {r v w u : V} {i j : ι}
    (hij : i ≠ j) (hi : f i r = .ok v) (hj : f j r = .ok w) (hagain : f i w = .ok u) (n : Nat) :
    ∃ q, (machine f (n + 2)).Reach available ((machine f (n + 2)).start { value := r }) q ∧
      q.state.commits = [j, i] ∧ q.state.attempts i = [⟨0, 1⟩] := by
  have hstart := Machine.Reach.here (M := machine f (n + 2)) (g := available)
    (p := (machine f (n + 2)).start { value := r })
  have hread := reach_read hstart (m := n + 1) (i := i) rfl hi
  have hother := reach_read hread (m := n + 1) (i := j) (Function.update_of_ne hij.symm _ _) hj
  have hcommit := reach_write hother (Function.update_self j _ _) (Function.update_self j _ _)
  have hdown := reach_turnDown hcommit (i := i) (m := n + 1) (v := v) (w := 0) ?_ ?_ ?_
  · have hreread := reach_read hdown (m := n) (i := i) (Function.update_self i _ _) hagain
    have hwrite := reach_write hreread (Function.update_self i _ _) (Function.update_self i _ _)
    exact ⟨_, hwrite, rfl, Function.update_self i _ _⟩
  · exact (Function.update_of_ne hij _ _).trans
      ((Function.update_of_ne hij _ _).trans (Function.update_self i _ _))
  · exact (Function.update_of_ne hij _ _).trans
      ((Function.update_of_ne hij _ _).trans (Function.update_self i _ _))
  · exact Nat.zero_ne_one

end Watch

end Concurrent
