/-
Optimistic updates of a value that may be lost.

The store may drop the value at any time and start again from the initial one, which it
counts as a write.  It may be away when a command comes, and it may also execute a command
and fail to say so.

`Kept` is what remains of `serializable`: the value is that of the updates which went
through since it was last lost, each of them once.
-/
import AdaptiveGateway.Concurrent.Watch

namespace Concurrent

namespace Watch
namespace Volatile

variable {ι V ε : Type}

inductive Choice where
  | up
  | down
  | lost
deriving DecidableEq

def reset (v₀ : V) (s : Cell ι V) : Cell ι V :=
  { s with value := v₀, writes := s.writes + 1, commits := [] }

def exec [DecidableEq ι] (i : ι) (c : Cmd V) :
    Choice → Cell ι V → Option (Except (Fault ε) (Ans c) × Cell ι V)
  | .up, s => Watch.exec i c .up s
  | .down, s => some (.error .unavailable, s)
  | .lost, s =>
    (Watch.exec i c .up s : Option (Except (Fault ε) (Ans c) × Cell ι V)).map fun o =>
      (.error .unavailable, o.2)

structure Kept (f : ι → V → Except ε V) (v₀ : V) (s : Cell ι V) : Prop where
  nodup : s.commits.Nodup
  value : replay f v₀ s.commits = .ok s.value

/-- What the others leave alone of call `i`, now that they may take its update back. -/
structure Rely (i : ι) (s t : Cell ι V) : Prop where
  watched : t.watched i = s.watched i
  mem : i ∈ t.commits → i ∈ s.commits
  writes : s.writes ≤ t.writes
  value : t.writes = s.writes → t.value = s.value

section

variable {f : ι → V → Except ε V} {v₀ : V} {i j : ι} {s t u : Cell ι V}

theorem Rely.of (h : Watch.Rely i s t) : Rely i s t :=
  ⟨h.watched, h.mem.mp, h.writes, h.value⟩

theorem Rely.refl (i : ι) (s : Cell ι V) : Rely i s s := .of (Watch.Rely.refl i s)

theorem Rely.trans (h : Rely i s t) (h' : Rely i t u) : Rely i s u where
  watched := h'.watched.trans h.watched
  mem := fun hi => h.mem (h'.mem hi)
  writes := Nat.le_trans h.writes h'.writes
  value hw := by
    have h₁ := h.writes
    have h₂ := h'.writes
    rw [h'.value (by omega), h.value (by omega)]

theorem kept_start (f : ι → V → Except ε V) (v₀ : V) : Kept f v₀ { value := v₀ } :=
  ⟨List.Pairwise.nil, rfl⟩

theorem kept_reset (f : ι → V → Except ε V) (v₀ : V) (s : Cell ι V) : Kept f v₀ (reset v₀ s) :=
  ⟨List.Pairwise.nil, rfl⟩

theorem rely_reset (v₀ : V) (i : ι) (s : Cell ι V) : Rely i s (reset v₀ s) where
  watched := rfl
  mem hi := by cases hi
  writes := Nat.le_succ _
  value hw := absurd hw (Nat.succ_ne_self _)

theorem Kept.frame (h : Kept f v₀ s) (hcommits : t.commits = s.commits)
    (hvalue : t.value = s.value) : Kept f v₀ t where
  nodup := hcommits ▸ h.nodup
  value := by rw [hcommits, hvalue]; exact h.value

variable [DecidableEq ι]

theorem Kept.write {v : V} (h : Kept f v₀ s) (hi : i ∉ s.commits) (hv : f i s.value = .ok v) :
    Kept f v₀ ((s.write i v).touch i) where
  nodup := by
    show (s.commits ++ [i]).Nodup
    rw [List.nodup_append]
    refine ⟨h.nodup, List.pairwise_singleton _ i, ?_⟩
    intro a ha c hc
    rw [List.mem_singleton.mp hc]
    rintro rfl
    exact hi ha
  value := (replay_concat f v₀ h.value i).trans hv

end

/-! ## A call -/

section

variable [DecidableEq ι] (f : ι → V → Except ε V) (v₀ : V) (i : ι)

/-- One call's view of the store. -/
def pact : Prog.Pact (Cmd V) Ans (Fault ε) (Cell ι V) where
  run c s r s' := ∃ ch, Kept f v₀ s ∧ exec i c ch s = some (r, s')
  I := Kept f v₀
  R := Rely i
  G s t := ∀ j, j ≠ i → Rely j s t

variable {f v₀ i} {w : Nat} {s s' : Cell ι V}

/-- The call is in a round that began to watch after `w` writes. -/
structure Watching (i : ι) (w : Nat) (s : Cell ι V) : Prop where
  absent : i ∉ s.commits
  watched : s.watched i = some w
  le : w ≤ s.writes

omit [DecidableEq ι] in
theorem Watching.mono {t : Cell ι V} (h : Watching i w s) (hst : Rely i s t) : Watching i w t where
  absent hi := h.absent (hst.mem hi)
  watched := hst.watched.trans h.watched
  le := Nat.le_trans h.le hst.writes

/-- A command that is executed, whether or not its answer arrives. -/
theorem wp_executed {c : Cmd V} {Q : Except (Fault ε) (Ans c) → Cell ι V → Prop}
    (haway : ∀ t, Rely i s t → Q (.error .unavailable) t)
    (hup : ∀ r s', Kept f v₀ s → Watch.exec i c .up s = some (r, s') → Kept f v₀ s' ∧
      (∀ j, j ≠ i → Rely j s s') ∧ ∀ t, Rely i s' t → Q r t ∧ Q (.error .unavailable) t) :
    (await c).wp (pact f v₀ i) Q s := by
  apply Prog.wp_issue
  rintro r s' ⟨ch, hI, he⟩
  cases ch with
  | up =>
    obtain ⟨hs', hG, hQ⟩ := hup r s' hI he
    exact ⟨hs', hG, fun t _ hst => (hQ t hst).1⟩
  | down =>
    cases he
    exact ⟨hI, fun j _ => Rely.refl j s, fun t _ hst => haway t hst⟩
  | lost =>
    obtain ⟨⟨r', s₁⟩, he', heq⟩ := Option.map_eq_some_iff.mp he
    cases heq
    obtain ⟨hs', hG, hQ⟩ := hup r' s₁ hI he'
    exact ⟨hs', hG, fun t _ hst => (hQ t hst).2⟩

/-- The round has begun to watch. -/
def Begun (i : ι) : Except (Fault ε) Unit → Cell ι V → Prop
  | .ok _, t => ∃ w, Watching i w t
  | .error e, _ => e = .unavailable

/-- The round has read `v`, which the cell still has if nobody wrote since. -/
def Read (f : ι → V → Except ε V) (v₀ : V) (i : ι) : Except (Fault ε) V → Cell ι V → Prop
  | .ok v, t => (∃ w, Watching i w t ∧ (t.writes = w → t.value = v)) ∧
      ∃ is, replay f v₀ is = .ok v
  | .error e, _ => e = .unavailable

theorem wp_watch (hi : i ∉ s.commits) :
    (await .watch).wp (pact f v₀ i) (Begun i) s := by
  refine wp_executed (fun _ _ => rfl) fun r s' hI he => ?_
  cases he
  refine ⟨hI.frame rfl rfl, fun j hj => .of (rely_watch hj), fun t hst => ⟨?_, rfl⟩⟩
  exact ⟨s.writes, fun h => hi (hst.mem h), hst.watched.trans (Function.update_self _ _ _),
    hst.writes⟩

theorem wp_get (h : Watching i w s) :
    (await .get).wp (pact f v₀ i) (Read f v₀ i) s := by
  refine wp_executed (fun _ _ => rfl) fun r s' hI he => ?_
  cases he
  refine ⟨hI.frame rfl rfl, fun j hj => .of (rely_get hj), fun t hst => ⟨?_, rfl⟩⟩
  have hwatching : Watching i w (s.touch i) := ⟨h.absent, h.watched, h.le⟩
  refine ⟨⟨w, hwatching.mono hst, fun hw => ?_⟩, s.commits, hI.value⟩
  have hle : s.writes ≤ t.writes := hst.writes
  have hle' : w ≤ s.writes := h.le
  exact hst.value (by show t.writes = s.writes; omega)

/-- How a round ends. -/
def Ended (f : ι → V → Except ε V) (v₀ : V) (i : ι) : Except (Fault ε) Unit → Cell ι V → Prop
  | .error .conflict, t => i ∉ t.commits
  | .error (.raised e), _ => Raises f v₀ i e
  | _, _ => True

theorem wp_exec {v v' : V} (h : Watching i w s) (hv : s.writes = w → s.value = v)
    (hf : f i v = .ok v') :
    (await (.exec v') : Prog (Cmd V) Ans (Fault ε) Unit).wp (pact f v₀ i) (Ended f v₀ i) s := by
  refine wp_executed (fun _ _ => trivial) fun r s' hI he => ?_
  simp only [Watch.exec, h.watched] at he
  split at he
  next hw =>
    cases he
    have hf' : f i s.value = .ok v' := by rw [hv hw.symm]; exact hf
    exact ⟨hI.write h.absent hf', fun j hj => .of (rely_write hj), fun _ _ => ⟨trivial, trivial⟩⟩
  next hw =>
    cases he
    refine ⟨hI.frame rfl rfl, fun j hj => .of (rely_turnDown hj), fun t hst => ⟨?_, trivial⟩⟩
    exact fun hi => h.absent (hst.mem hi)

theorem wp_round (hi : i ∉ s.commits) :
    (round (f i)).wp (pact f v₀ i) (Ended f v₀ i) s := by
  refine Prog.wp_seq (wp_watch hi) (fun e t ht => ?_) ?_
  · cases (ht : e = .unavailable)
    trivial
  rintro - t ⟨w, ht⟩
  refine Prog.wp_seq (wp_get ht) (fun e u hu => ?_) ?_
  · cases (hu : e = .unavailable)
    trivial
  rintro v u ⟨⟨w', hu, hval⟩, is, his⟩
  cases hf : f i v with
  | error e =>
    show Raises f v₀ i e
    exact ⟨is, v, his, hf⟩
  | ok v' => exact wp_exec hu hval hf

/-- A call ends quietly, or with the exception of an update that cannot be computed. -/
theorem wp_retry (n : Nat) (hi : i ∉ s.commits) :
    (retry (f i) n).wp (pact f v₀ i)
      (fun r _ => ∀ e, r = .error e → ∃ x, e = .raised x ∧ Raises f v₀ i x) s := by
  induction n generalizing s with
  | zero =>
    intro e he
    cases he
  | succ n ih =>
    refine Prog.wp_except (Prog.wp_mono (fun r t hr => ?_) (wp_round hi))
    cases r with
    | ok u =>
      intro e he
      cases he
    | error x =>
      cases x with
      | conflict => exact ih hr
      | unavailable =>
        intro e he
        cases he
      | raised x =>
        rintro e he
        cases he
        exact ⟨x, rfl, hr⟩

end

end Volatile
end Watch

end Concurrent
