/-
Programs over the calls of an interface.

A caller decides by the answers of its calls which one comes next.  Each call is in turn a
program over the commands of a store, and `interpret` puts the two together: a call is
then no longer one step, and what other threads do may come between its commands.
-/
import AdaptiveGateway.Concurrent.Prog

namespace Concurrent
namespace Prog

variable {C D : Type} {A : C → Type} {B : D → Type} {ε α β : Type}

/-- Go on with the outcome of `p`, be it a value or an exception. -/
def andThen : Prog D B ε β → (Except ε β → Prog D B ε α) → Prog D B ε α
  | ret b, f => f (.ok b)
  | raise e, f => f (.error e)
  | call c k, f => call c fun r => andThen (k r) f

/-- The program with the implementation of each call in its place. -/
def interpret (impl : (c : C) → Prog D B ε (A c)) : Prog C A ε α → Prog D B ε α
  | ret a => ret a
  | raise e => raise e
  | call c k => andThen (impl c) fun r => interpret impl (k r)

theorem Follows.andThen {L : Protocol D B ε} {φ : L.Phase} {p : Prog D B ε β}
    {f : Except ε β → Prog D B ε α} {Q : Except ε β → L.Phase → Prop}
    {Q' : Except ε α → L.Phase → Prop} (hp : p.Follows L φ Q)
    (hf : ∀ r ψ, Q r ψ → (f r).Follows L ψ Q') : (Prog.andThen p f).Follows L φ Q' := by
  induction p generalizing φ with
  | ret b => exact hf (.ok b) φ hp
  | raise e => exact hf (.error e) φ hp
  | call c k ih => exact ⟨hp.1, fun r => ih r (hp.2 r)⟩

/-- If each call keeps to a protocol of the commands, from the phase that belongs to the phase
of the caller to the one that belongs to the next, then so does the whole. -/
theorem Follows.interpret {L : Protocol C A ε} {L' : Protocol D B ε} (g : L.Phase → L'.Phase)
    {impl : (c : C) → Prog D B ε (A c)}
    (himpl : ∀ φ c, L.allows φ c → (impl c).Follows L' (g φ) fun r ψ => ψ = g (L.next φ c r))
    {φ : L.Phase} {p : Prog C A ε α} {Q : Except ε α → L.Phase → Prop} (hp : p.Follows L φ Q) :
    (Prog.interpret impl p).Follows L' (g φ) fun r ψ => ∃ φ', ψ = g φ' ∧ Q r φ' := by
  induction p generalizing φ with
  | ret a => exact ⟨φ, rfl, hp⟩
  | raise e => exact ⟨φ, rfl, hp⟩
  | call c k ih =>
    refine (himpl φ c hp.1).andThen fun r ψ hψ => ?_
    rw [hψ]
    exact ih r (hp.2 r)

section RelyGuarantee

variable {σ τ : Type} {P : Pact C A ε σ} {P' : Pact D B ε τ}

theorem wp_andThen {p : Prog D B ε β} {f : Except ε β → Prog D B ε α} {Q : Except ε α → τ → Prop}
    {s : τ} (hp : wp P' p (fun r t => wp P' (f r) Q t) s) : wp P' (andThen p f) Q s := by
  induction p generalizing s with
  | ret b => exact hp
  | raise e => exact hp
  | call c k ih =>
    intro r s' hr
    obtain ⟨hI, hG, hk⟩ := hp r s' hr
    exact ⟨hI, hG, fun t ht hst => ih r (hk t ht hst)⟩

/-- A program over an interface keeps its meaning in a larger state, of which `view` is the
part it knows, if each implementation does what is said of the call, and nothing falsifies
`L`. -/
theorem wp_interpret (view : τ → σ) (L : τ → Prop) {impl : (c : C) → Prog D B ε (A c)}
    {p : Prog C A ε α} {Q : Except ε α → σ → Prop} {s : τ} (hI : ∀ t, P'.I t → P.I (view t))
    (himpl : ∀ c s (K : Except ε (A c) → τ → Prop), L s →
      (∀ r v, P.run c (view s) r v → P.I v ∧ P.G (view s) v ∧
        ∀ t, P'.I t → P.R v (view t) → L t → K r t) → wp P' (impl c) K s)
    (hp : wp P p Q (view s)) (hs : L s) :
    wp P' (Prog.interpret impl p) (fun r t => Q r (view t) ∧ L t) s := by
  induction p generalizing s with
  | ret a => exact ⟨hp, hs⟩
  | raise e => exact ⟨hp, hs⟩
  | call c k ih =>
    refine wp_andThen (himpl c s _ hs fun r v hr => ?_)
    obtain ⟨hv, hG, hk⟩ := hp r v hr
    exact ⟨hv, hG, fun t ht hst hL => ih r (hk (view t) (hI t ht) hst) hL⟩

end RelyGuarantee

end Prog
end Concurrent
