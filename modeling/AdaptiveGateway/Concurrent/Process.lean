/-
Processes that read and write messages.

A process is a machine whose state says what comes next: it waits for a message,
possibly for a limited time, it writes one, or it has ended.  Unlike a program a
process may go on for ever.  `Runs` are its finite histories, as lists of events,
and `received` and `sent` are the two halves of a history.

A layer around a process is a process too.  What it does to the inner one is then a
statement about histories: which history of the inner process stands behind a history
of the whole.
-/
import Mathlib.Data.List.Basic

namespace Concurrent

variable {In Out S T : Type}

/-- What a process does next.  A read with a limit is answered by `none` if no message
arrives in time. -/
inductive Act (In Out S : Type) where
  | receive (limit : Option Nat) (k : Option In → S)
  | send (o : Out) (s : S)
  | done

abbrev Process (In Out S : Type) := S → Act In Out S

namespace Process

inductive Event (In Out : Type) where
  | got (i : Option In)
  | put (o : Out)
deriving DecidableEq

inductive Runs (P : Process In Out S) : S → List (Event In Out) → S → Prop where
  | here (s : S) : Runs P s [] s
  | got {s t : S} {limit : Option Nat} {k : Option In → S} {i : Option In}
      {es : List (Event In Out)} : P s = .receive limit k → (i = none → limit ≠ none) →
      Runs P (k i) es t → Runs P s (.got i :: es) t
  | put {s s' t : S} {o : Out} {es : List (Event In Out)} :
      P s = .send o s' → Runs P s' es t → Runs P s (.put o :: es) t

/-- The messages a process was given, and `none` where it waited in vain. -/
def received : List (Event In Out) → List (Option In)
  | [] => []
  | .got i :: es => i :: received es
  | .put _ :: es => received es

def sent : List (Event In Out) → List Out
  | [] => []
  | .got _ :: es => sent es
  | .put o :: es => o :: sent es

@[simp] theorem received_append (es fs : List (Event In Out)) :
    received (es ++ fs) = received es ++ received fs := by
  induction es with
  | nil => rfl
  | cons e es ih => cases e <;> simp [received, ih]

@[simp] theorem sent_append (es fs : List (Event In Out)) :
    sent (es ++ fs) = sent es ++ sent fs := by
  induction es with
  | nil => rfl
  | cons e es ih => cases e <;> simp [sent, ih]

variable {P : Process In Out S} {s t u : S} {es fs : List (Event In Out)}

theorem Runs.append (h : Runs P s es t) (h' : Runs P t fs u) : Runs P s (es ++ fs) u := by
  induction h with
  | here => exact h'
  | got hP hi _ ih => exact .got hP hi (ih h')
  | put hP _ ih => exact .put hP (ih h')

/-- What every step keeps holds at the end of a run.  `J` may speak of the history. -/
theorem Runs.invariant {J : List (Event In Out) → S → Prop} (h : Runs P s es t) (h₀ : J [] s)
    (hgot : ∀ past s limit k i, J past s → P s = .receive limit k → (i = none → limit ≠ none) →
      J (past ++ [.got i]) (k i))
    (hput : ∀ past s o s', J past s → P s = .send o s' → J (past ++ [.put o]) s') : J es t := by
  suffices hrest : ∀ past, J past s → J (past ++ es) t by simpa using hrest [] h₀
  clear h₀
  induction h with
  | here => intro past hJ; simpa using hJ
  | @got s t limit k i es hP hi _ ih =>
    intro past hJ
    have hnext := ih (past ++ [.got i]) (hgot past s limit k i hJ hP hi)
    rwa [List.append_assoc] at hnext
  | @put s s' t o es hP _ ih =>
    intro past hJ
    have hnext := ih (past ++ [.put o]) (hput past s o s' hJ hP)
    rwa [List.append_assoc] at hnext

end Process

end Concurrent
