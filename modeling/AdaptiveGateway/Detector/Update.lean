/-
Concurrent updates of one client's classifier state.

`_update_state` is an optimistic loop of at most four rounds: WATCH the key, GET it,
fold the sample in, and write the new text in a transaction that goes through only if
nobody wrote the key since the WATCH.  The expiry that the write sets is left out,
since the key is taken not to expire.
-/
import AdaptiveGateway.Concurrent.Watch
import AdaptiveGateway.Detector.Corrupt

namespace AdaptiveGateway

namespace Detector

open Codec Numeric Concurrent
open Watch (Cmd Ans Fault Cell await)

variable (it : Interpreter) (t : Thresholds)

/-- One round of the loop.  A `WatchError` is a conflict, any other `RedisError` the
store being unavailable. -/
def attempt (sampleMs : Binary64) : Prog (Cmd (Option Text)) Ans (Fault StateExc) Unit := do
  await .watch
  let raw ← await .get
  let current ← Prog.ofExcept ((decodeState it raw).mapError .raised)
  let updated := advance current sampleMs t
  await (.exec (some (encodeState it.py updated)))

/-- The last `n` rounds of the loop. -/
def rounds (sampleMs : Binary64) : Nat → Prog (Cmd (Option Text)) Ans (Fault StateExc) Unit
  | 0 => pure ()
  | n + 1 => (attempt it t sampleMs).except fun
    | .conflict => some (rounds sampleMs n)
    | .unavailable => some (pure ())
    | .raised _ => none

/-- `_update_state`. -/
def updateState (sampleMs : Binary64) : Prog (Cmd (Option Text)) Ans (Fault StateExc) Unit :=
  rounds it t sampleMs 4

/-- Any number of calls for one key, each with its sample. -/
def updates (samples : Nat → Binary64) :
    Machine Nat (Cmd (Option Text)) Ans (Fault StateExc) Unit (Cell Nat (Option Text))
      Watch.Choice Empty where
  exec := Watch.exec
  env e _ := e.elim
  drop _ s := s
  boot i := updateState it t (samples i)
  again _ _ := none

/-! ## The loop as an optimistic update -/

/-- The text after a sample. -/
def update (sampleMs : Binary64) (raw : Option Text) : Except StateExc (Option Text) :=
  (decodeState it raw).map fun current => some (encodeState it.py (advance current sampleMs t))

variable {it t}

theorem attempt_eq (x : Binary64) : attempt it t x = Watch.round (update it t x) := by
  show Prog.bind _ _ = Prog.bind _ _
  congr 1
  funext _
  show Prog.bind _ _ = Prog.bind _ _
  congr 1
  funext raw
  rw [update]
  cases decodeState it raw <;> rfl

theorem rounds_eq (x : Binary64) (n : Nat) : rounds it t x n = Watch.retry (update it t x) n := by
  induction n with
  | zero => rfl
  | succ n ih =>
    rw [rounds, Watch.retry, attempt_eq, ih]
    congr 1
    funext e
    cases e <;> rfl

theorem updates_eq (samples : Nat → Binary64) :
    updates it t samples = Watch.machine (fun i => update it t (samples i)) 4 := by
  rw [updates, Watch.machine]
  congr 1
  funext i
  exact rounds_eq (samples i) 4

/-- Replaying updates of the text is folding the samples into the state it holds. -/
theorem decodeState_replay (hit : it.Faithful) (ht : t.Valid) (samples : Nat → Binary64)
    (is : List Nat) : ∀ {raw raw' : Option Text},
    Watch.replay (fun i => update it t (samples i)) raw is = .ok raw' →
    decodeState it raw' = (decodeState it raw).map fun st =>
      (is.map samples).foldl (fun st x => advance st x t) st := by
  induction is with
  | nil =>
    intro raw raw' h
    cases h
    cases decodeState it raw <;> rfl
  | cons i is ih =>
    intro raw raw' h
    cases hraw : decodeState it raw with
    | error e =>
      rw [Watch.replay, List.foldlM_cons, update, hraw] at h
      cases h
    | ok st =>
      rw [Watch.replay, List.foldlM_cons, update, hraw] at h
      rw [ih h, decodeState_encodeState hit (advance_storable ht (decodeState_storable hraw) _)]
      rfl

/-- What the calls on one key owe each other, of a pool `q` that they have come to from the
text `raw`. -/
structure Serialized (it : Interpreter) (t : Thresholds) (samples : Nat → Binary64)
    (raw : Option Text)
    (q : Pool Nat (Cmd (Option Text)) Ans (Fault StateExc) Unit (Cell Nat (Option Text))) :
    Prop where
  /-- The stored state is the fold of the samples of the calls that went through, in the order
  in which they did. -/
  value : decodeState it q.state.value = (decodeState it raw).map fun st =>
    (q.state.commits.map samples).foldl (fun st x => advance st x t) st
  once : q.state.commits.Nodup
  /-- A call that ends, in whichever way, without having gone through was overtaken in each of
  its four rounds, by a different other call each time. -/
  overtaken : ∀ i r, q.prog i = some (Prog.ofExcept r) → i ∉ q.state.commits →
    (q.state.attempts i).length = 4 ∧ ∃ js : List Nat,
      List.Forall₂ (fun a j => j ∈ q.state.window a.watch a.exec) (q.state.attempts i) js ∧
      js.Nodup ∧ i ∉ js
  /-- No call loses its sample while at most three others go through. -/
  kept : ∀ i r, q.prog i = some (Prog.ofExcept r) →
    (∀ b e, q.state.span i = some (b, e) →
      ((q.state.window b e).filter fun j => decide (j ≠ i)).length ≤ 3) →
    i ∈ q.state.commits

/-- Over a text that can be read no call raises, since what the calls write can be read. -/
theorem ended_ok (hit : it.Faithful) (ht : t.Valid) {samples : Nat → Binary64}
    {raw : Option Text} {st : RttState} (hraw : decodeState it raw = .ok st)
    {q : Pool Nat (Cmd (Option Text)) Ans (Fault StateExc) Unit (Cell Nat (Option Text))}
    (hq : (Watch.machine (fun i => update it t (samples i)) 4).Reach Watch.available
      ((Watch.machine (fun i => update it t (samples i)) 4).start { value := raw }) q)
    {i : Nat} {r : Except (Fault StateExc) Unit} (hi : q.prog i = some (Prog.ofExcept r)) :
    r = .ok () := by
  have hend := Watch.ended hq hi
  match r, hend with
  | .ok _, _ => rfl
  | .error (.raised e), ⟨is, v, hv, he⟩ =>
    have hdec := decodeState_replay hit ht samples is hv
    rw [hraw] at hdec
    simp only [update, hdec] at he
    cases he

theorem serialized_of_ok (hit : it.Faithful) (ht : t.Valid) {samples : Nat → Binary64}
    {raw : Option Text} {st : RttState} (hraw : decodeState it raw = .ok st)
    {q : Pool Nat (Cmd (Option Text)) Ans (Fault StateExc) Unit (Cell Nat (Option Text))}
    (hq : (updates it t samples).Reach Watch.available
      ((updates it t samples).start { value := raw }) q) :
    Serialized it t samples raw q := by
  rw [updates_eq] at hq
  obtain ⟨hvalue, hnodup⟩ := Watch.serializable hq
  refine ⟨decodeState_replay hit ht samples _ hvalue, hnodup, ?_, ?_⟩
  · intro i r hi habsent
    obtain rfl := ended_ok hit ht hraw hq hi
    obtain ⟨hlen, js, hjs, hnd, hmem, -⟩ := Watch.gave_up hq hi habsent
    exact ⟨hlen, js, hjs, hnd, hmem⟩
  · intro i r hi hfew
    obtain rfl := ended_ok hit ht hraw hq hi
    exact Watch.goes_through hq hi (by decide) fun b e h => Nat.lt_succ_of_le (hfew b e h)

/-- A call on a text that cannot be read ends in the exception in its first round, and
without its sample, though nobody overtook it. -/
theorem not_serialized_of_error {samples : Nat → Binary64} {raw : Option Text} {e : StateExc}
    (hraw : decodeState it raw = .error e) :
    ¬∀ q, (updates it t samples).Reach Watch.available
      ((updates it t samples).start { value := raw }) q → Serialized it t samples raw q := by
  have hupdate : update it t (samples 0) raw = .error e := by
    rw [update, hraw]
    rfl
  obtain ⟨q, hq, hprog, -, hcommits, hattempts⟩ := Watch.raises_alone
    (f := fun i => update it t (samples i)) hupdate 3
  rw [← updates_eq] at hq
  intro h
  have hlength := ((h q hq).overtaken 0 (.error (.raised e)) hprog (by simp [hcommits])).1
  rw [hattempts] at hlength
  cases hlength

/-- The calls are serialized in every run exactly if the text that they find can be read. -/
theorem passive_updates_serializable_iff (it : Interpreter) (hit : it.Faithful) (t : Thresholds)
    (ht : t.Valid) (samples : Nat → Binary64) (raw : Option Text) :
    (∀ q, (updates it t samples).Reach Watch.available
        ((updates it t samples).start { value := raw }) q → Serialized it t samples raw q) ↔
      Readable it raw := by
  rw [← decodeState_ok_iff]
  constructor
  · intro h
    cases hraw : decodeState it raw with
    | ok st => exact ⟨st, rfl⟩
    | error e => exact absurd h (not_serialized_of_error hraw)
  · rintro ⟨st, hraw⟩ q hq
    exact serialized_of_ok hit ht hraw hq

def twoSamples : Nat → Binary64
  | 0 => ms 800
  | _ => ms 200

/-- The second call goes through between the read and the write of the first, which is turned
down and goes through in its next round. -/
theorem passive_updates_serializable_mock :
    ∃ q, (updates mockInterpreter crisp twoSamples).Reach Watch.available
        ((updates mockInterpreter crisp twoSamples).start { value := none }) q ∧
      q.state.commits = [1, 0] ∧ q.state.attempts 0 = [⟨0, 1⟩] ∧
      decodeState mockInterpreter q.state.value =
        .ok (advance (advance {} (ms 200) crisp) (ms 800) crisp) := by
  have hread : decodeState mockInterpreter (some (encodeState mockInterpreter.py
      (advance {} (ms 200) crisp))) = .ok (advance {} (ms 200) crisp) :=
    decodeState_encodeState mockInterpreter_faithful (advance_storable crisp_valid storable_fresh _)
  have hreread : update mockInterpreter crisp (ms 800) (some (encodeState mockInterpreter.py
      (advance {} (ms 200) crisp))) = .ok (some (encodeState mockInterpreter.py
        (advance (advance {} (ms 200) crisp) (ms 800) crisp))) := by
    rw [update, hread]
    rfl
  obtain ⟨q, hq, hcommits, hattempts⟩ := Watch.exists_overtaken (i := 0) (j := 1) (r := none)
    (f := fun i => update mockInterpreter crisp (twoSamples i)) (by decide) rfl rfl hreread 2
  rw [← updates_eq] at hq
  have h := ((passive_updates_serializable_iff mockInterpreter mockInterpreter_faithful crisp
    crisp_valid twoSamples none).mpr trivial q hq).value
  rw [hcommits] at h
  exact ⟨q, hq, hcommits, hattempts, h⟩

/-- One call on a key whose count is infinite. -/
theorem passive_update_lost :
    ¬∀ q, (updates mockInterpreter crisp fun _ => ms 800).Reach Watch.available
        ((updates mockInterpreter crisp fun _ => ms 800).start { value := some infiniteCount }) q →
      Serialized mockInterpreter crisp (fun _ => ms 800) (some infiniteCount) q :=
  not_serialized_of_error decodeState_infiniteCount

end Detector

end AdaptiveGateway
