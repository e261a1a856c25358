/-
Programs that issue one command at a time.

A coroutine runs undisturbed between two suspension points and gives up control
at each of them.  `Prog` keeps exactly the suspension points: a program is
finished, has raised, or waits for the answer to one command.  The answer is
either a value or an exception, and the rest of the program is a function of it.
The type is inductive, so every program issues finitely many commands along each
branch, and a loop that never ends is put together from finite bodies by
whoever runs the program.

Four readings of a program are used.  `play` runs it against an oracle that
answers from the history of the conversation, which is the reading of a single
program in an arbitrary environment.  `Sure` asks for an outcome under all the
answers that an environment may give.  `eval` runs it alone on a state.  `wp` is
the rely-guarantee weakest precondition, for a program whose commands act on a
state that others change between any two of them.
-/
import Mathlib.Logic.Basic

namespace Concurrent

/-- A program over the commands `C`, where command `c` is answered by a value of
`A c` or by an exception. -/
inductive Prog (C : Type) (A : C → Type) (ε α : Type) where
  | ret (a : α)
  | raise (e : ε)
  | call (c : C) (k : Except ε (A c) → Prog C A ε α)

namespace Prog

variable {C : Type} {A : C → Type} {ε α β γ : Type}

def bind : Prog C A ε α → (α → Prog C A ε β) → Prog C A ε β
  | ret a, f => f a
  | raise e, _ => raise e
  | call c k, f => call c fun r => bind (k r) f

instance : Monad (Prog C A ε) where
  pure := ret
  bind := bind

/-- Issue a command and hand on its answer. -/
def issue (c : C) : Prog C A ε (A c) :=
  call c fun r => match r with
    | .ok a => ret a
    | .error e => raise e

/-- A computation without commands. -/
def ofExcept : Except ε α → Prog C A ε α
  | .ok a => ret a
  | .error e => raise e

/-- `try p except`, where `h` answers with the handler for the exceptions it
catches. -/
def except : Prog C A ε α → (ε → Option (Prog C A ε α)) → Prog C A ε α
  | ret a, _ => ret a
  | raise e, h => (h e).getD (raise e)
  | call c k, h => call c fun r => except (k r) h

/-- `try p finally q`.  An exception of `q` takes the place of the outcome of
`p`. -/
def finally_ : Prog C A ε α → Prog C A ε Unit → Prog C A ε α
  | ret a, q => bind q fun _ => ret a
  | raise e, q => bind q fun _ => raise e
  | call c k, q => call c fun r => finally_ (k r) q

/-- A `for` loop over a list. -/
def forEach (f : β → Prog C A ε Unit) : List β → Prog C A ε Unit
  | [] => ret ()
  | b :: bs => bind (f b) fun _ => forEach f bs

@[simp] theorem pure_eq (a : α) : (pure a : Prog C A ε α) = ret a := rfl

@[simp] theorem bind_eq (p : Prog C A ε α) (f : α → Prog C A ε β) : p >>= f = bind p f := rfl

@[simp] theorem ret_bind (a : α) (f : α → Prog C A ε β) : bind (ret a) f = f a := rfl

@[simp] theorem raise_bind (e : ε) (f : α → Prog C A ε β) :
    bind (raise e) f = raise e := rfl

@[simp] theorem call_bind (c : C) (k : Except ε (A c) → Prog C A ε α) (f : α → Prog C A ε β) :
    bind (call c k) f = call c fun r => bind (k r) f := rfl

/-- A program over the commands `C` where the commands `D` are at hand as well. -/
def lift {D : Type} {B : D → Type} : Prog C A ε α → Prog (C ⊕ D) (Sum.elim A B) ε α
  | ret a => ret a
  | raise e => raise e
  | call c k => call (.inl c) fun r => lift (k r)

/-! ## Protocols

A protocol says which commands may come next.  A program follows it if it does so
whatever the answers are; nothing is said about any state. -/

structure Protocol (C : Type) (A : C → Type) (ε : Type) where
  Phase : Type
  allows : Phase → C → Prop
  next : Phase → (c : C) → Except ε (A c) → Phase

/-- Started in the phase `φ`, the program keeps to the protocol and ends in a phase
that `Q` accepts. -/
def Follows (L : Protocol C A ε) : Prog C A ε α → L.Phase → (Except ε α → L.Phase → Prop) → Prop
  | ret a, φ, Q => Q (.ok a) φ
  | raise e, φ, Q => Q (.error e) φ
  | call c k, φ, Q => L.allows φ c ∧ ∀ r, Follows L (k r) (L.next φ c r) Q

section Follows

variable {L : Protocol C A ε} {φ : L.Phase} {Q Q' : Except ε α → L.Phase → Prop}

theorem Follows.mono {p : Prog C A ε α} (h : ∀ r φ, Q r φ → Q' r φ) (hp : p.Follows L φ Q) :
    p.Follows L φ Q' := by
  induction p generalizing φ with
  | ret a => exact h _ _ hp
  | raise e => exact h _ _ hp
  | call c k ih => exact ⟨hp.1, fun r => ih r (hp.2 r)⟩

theorem Follows.bind {p : Prog C A ε α} {f : α → Prog C A ε β}
    {Q' : Except ε β → L.Phase → Prop} (hp : p.Follows L φ Q)
    (herror : ∀ e φ, Q (.error e) φ → Q' (.error e) φ)
    (hok : ∀ a φ, Q (.ok a) φ → (f a).Follows L φ Q') : (Prog.bind p f).Follows L φ Q' := by
  induction p generalizing φ with
  | ret a => exact hok a φ hp
  | raise e => exact herror e φ hp
  | call c k ih => exact ⟨hp.1, fun r => ih r (hp.2 r)⟩

theorem Follows.except {p : Prog C A ε α} {h : ε → Option (Prog C A ε α)}
    (hp : p.Follows L φ Q) (hok : ∀ a φ, Q (.ok a) φ → Q' (.ok a) φ)
    (herror : ∀ e φ, Q (.error e) φ → ((h e).getD (raise e)).Follows L φ Q') :
    (Prog.except p h).Follows L φ Q' := by
  induction p generalizing φ with
  | ret a => exact hok a φ hp
  | raise e => exact herror e φ hp
  | call c k ih => exact ⟨hp.1, fun r => ih r (hp.2 r)⟩

theorem Follows.finally_ {p : Prog C A ε α} {q : Prog C A ε Unit} (hp : p.Follows L φ Q)
    (hq : ∀ r φ, Q r φ → q.Follows L φ fun r' ψ => match r' with
      | .ok _ => Q' r ψ
      | .error e => Q' (.error e) ψ) : (Prog.finally_ p q).Follows L φ Q' := by
  induction p generalizing φ with
  | ret a => exact (hq _ _ hp).bind (fun _ _ h => h) fun _ _ h => h
  | raise e => exact (hq _ _ hp).bind (fun _ _ h => h) fun _ _ h => h
  | call c k ih => exact ⟨hp.1, fun r => ih r (hp.2 r)⟩

theorem Follows.issue {c : C} {Q : Except ε (A c) → L.Phase → Prop} (hc : L.allows φ c)
    (hQ : ∀ r, Q r (L.next φ c r)) : (issue c : Prog C A ε (A c)).Follows L φ Q :=
  ⟨hc, fun r => by cases r <;> exact hQ _⟩

/-- A loop that comes back to the phase it started in. -/
theorem Follows.forEach {f : β → Prog C A ε Unit} {Q : Except ε Unit → L.Phase → Prop}
    {bs : List β} (hdone : Q (.ok ()) φ)
    (hf : ∀ b ∈ bs, (f b).Follows L φ fun r ψ => match r with
      | .ok _ => ψ = φ
      | .error e => Q (.error e) ψ) : (forEach f bs).Follows L φ Q := by
  induction bs with
  | nil => exact hdone
  | cons b bs ih =>
    refine (hf b List.mem_cons_self).bind (fun _ _ h => h) fun _ ψ hψ => ?_
    rw [show ψ = φ from hψ]
    exact ih fun b' hb' => hf b' (List.mem_cons_of_mem b hb')

end Follows

/-- The protocol of a single phase. -/
def Protocol.only (A : C → Type) (ε : Type) (S : C → Prop) : Protocol C A ε where
  Phase := Unit
  allows _ := S
  next _ _ _ := ()

/-- Every command the program can ever issue satisfies `S`. -/
def Issues (S : C → Prop) (p : Prog C A ε α) : Prop :=
  p.Follows (Protocol.only A ε S) () fun _ _ => True

theorem Issues.bind {S : C → Prop} {p : Prog C A ε α} {f : α → Prog C A ε β}
    (hp : p.Issues S) (hf : ∀ a, (f a).Issues S) : (Prog.bind p f).Issues S :=
  Follows.bind hp (fun _ _ _ => trivial) fun a _ _ => hf a

theorem Issues.except {S : C → Prop} {p : Prog C A ε α} {h : ε → Option (Prog C A ε α)}
    (hp : p.Issues S) (hh : ∀ e q, h e = some q → q.Issues S) : (Prog.except p h).Issues S := by
  refine Follows.except hp (fun _ _ _ => trivial) fun e _ _ => ?_
  cases he : h e with
  | none => trivial
  | some q => exact hh e q he

theorem Issues.finally_ {S : C → Prop} {p : Prog C A ε α} {q : Prog C A ε Unit}
    (hp : p.Issues S) (hq : q.Issues S) : (Prog.finally_ p q).Issues S :=
  Follows.finally_ hp fun _ _ _ => hq.mono fun r _ _ => by cases r <;> trivial

theorem Issues.issue {S : C → Prop} {c : C} (hc : S c) :
    (issue c : Prog C A ε (A c)).Issues S :=
  Follows.issue hc fun _ => trivial

theorem Issues.mono {S S' : C → Prop} {p : Prog C A ε α} (h : ∀ c, S c → S' c)
    (hp : p.Issues S) : p.Issues S' := by
  induction p with
  | ret a => trivial
  | raise e => trivial
  | call c k ih => exact ⟨h c hp.1, fun r => ih r (hp.2 r)⟩

theorem Issues.ofExcept {S : C → Prop} (o : Except ε α) :
    (ofExcept o : Prog C A ε α).Issues S := by
  cases o <;> trivial

theorem Issues.forEach {S : C → Prop} {f : β → Prog C A ε Unit} (hf : ∀ b, (f b).Issues S)
    (bs : List β) : (forEach f bs).Issues S := by
  induction bs with
  | nil => trivial
  | cons b bs ih => exact (hf b).bind fun _ => ih

theorem Issues.lift {D : Type} {B : D → Type} {S : C ⊕ D → Prop} {p : Prog C A ε α}
    (hp : p.Issues fun c => S (.inl c)) :
    (lift p : Prog (C ⊕ D) (Sum.elim A B) ε α).Issues S := by
  induction p with
  | ret a => trivial
  | raise e => trivial
  | call c k ih => exact ⟨hp.1, fun r => ih r (hp.2 r)⟩

/-- A program whose commands leave a phase as it is stays in this phase. -/
theorem Issues.follows {L : Protocol C A ε} {φ : L.Phase} {S : C → Prop} {p : Prog C A ε α}
    (hp : p.Issues S) (hS : ∀ c, S c → L.allows φ c ∧ ∀ r, L.next φ c r = φ) :
    p.Follows L φ fun _ ψ => ψ = φ := by
  induction p with
  | ret a => rfl
  | raise e => rfl
  | call c k ih =>
    obtain ⟨hallow, hnext⟩ := hS c hp.1
    refine ⟨hallow, fun r => ?_⟩
    rw [hnext r]
    exact ih r (hp.2 r)

/-! ## One program and an oracle -/

/-- One exchange of a conversation: a command and its answer. -/
structure Exchange (C : Type) (A : C → Type) (ε : Type) where
  cmd : C
  answer : Except ε (A cmd)

/-- An environment seen from one program: what it answers may depend on
everything said before. -/
abbrev Oracle (C : Type) (A : C → Type) (ε : Type) :=
  List (Exchange C A ε) → (c : C) → Except ε (A c)

/-- The conversation of a program with an oracle, after the history `h`, and the
program's outcome.  The conversation is returned in order, without `h`. -/
def play (ρ : Oracle C A ε) :
    List (Exchange C A ε) → Prog C A ε α → List (Exchange C A ε) × Except ε α
  | _, ret a => ([], .ok a)
  | _, raise e => ([], .error e)
  | h, call c k =>
    let x : Exchange C A ε := ⟨c, ρ h c⟩
    let rest := play ρ (h ++ [x]) (k (ρ h c))
    (x :: rest.1, rest.2)

@[simp] theorem play_ret (ρ : Oracle C A ε) (h : List (Exchange C A ε)) (a : α) :
    play ρ h (ret a : Prog C A ε α) = ([], .ok a) := rfl

@[simp] theorem play_raise (ρ : Oracle C A ε) (h : List (Exchange C A ε)) (e : ε) :
    play ρ h (raise e : Prog C A ε α) = ([], .error e) := rfl

theorem play_call (ρ : Oracle C A ε) (h : List (Exchange C A ε)) (c : C)
    (k : Except ε (A c) → Prog C A ε α) :
    play ρ h (call c k) =
      (⟨c, ρ h c⟩ :: (play ρ (h ++ [⟨c, ρ h c⟩]) (k (ρ h c))).1,
        (play ρ (h ++ [⟨c, ρ h c⟩]) (k (ρ h c))).2) := rfl

/-- A sequence talks as its first part does, and goes on with the second part
only if the first returned. -/
theorem play_bind (ρ : Oracle C A ε) (p : Prog C A ε α) (f : α → Prog C A ε β)
    (h : List (Exchange C A ε)) :
    play ρ h (bind p f) =
      match (play ρ h p).2 with
      | .ok a => ((play ρ h p).1 ++ (play ρ (h ++ (play ρ h p).1) (f a)).1,
          (play ρ (h ++ (play ρ h p).1) (f a)).2)
      | .error e => ((play ρ h p).1, .error e) := by
  induction p generalizing h with
  | ret a => simp
  | raise e => simp
  | call c k ih =>
    simp only [call_bind, play_call, ih]
    cases hr : (play ρ (h ++ [⟨c, ρ h c⟩]) (k (ρ h c))).2 with
    | ok a => simp
    | error e => rfl

theorem play_bind_ok {ρ : Oracle C A ε} {p : Prog C A ε α} (f : α → Prog C A ε β)
    {h : List (Exchange C A ε)} {a : α} (hp : (play ρ h p).2 = .ok a) :
    (play ρ h (bind p f)).1 = (play ρ h p).1 ++ (play ρ (h ++ (play ρ h p).1) (f a)).1 := by
  rw [play_bind, hp]

theorem play_bind_error {ρ : Oracle C A ε} {p : Prog C A ε α} (f : α → Prog C A ε β)
    {h : List (Exchange C A ε)} {e : ε} (hp : (play ρ h p).2 = .error e) :
    (play ρ h (bind p f)).1 = (play ρ h p).1 := by
  rw [play_bind, hp]

/-- Whatever follows, the conversation of a sequence begins with that of its first
part. -/
theorem play_bind_prefix {ρ : Oracle C A ε} (p : Prog C A ε α) (f : α → Prog C A ε β)
    (h : List (Exchange C A ε)) : (play ρ h p).1 <+: (play ρ h (bind p f)).1 := by
  rw [play_bind]
  cases (play ρ h p).2 with
  | ok a => exact List.prefix_append _ _
  | error e => exact List.prefix_rfl

theorem play_except (ρ : Oracle C A ε) (p : Prog C A ε α) (g : ε → Option (Prog C A ε α))
    (h : List (Exchange C A ε)) :
    play ρ h (except p g) =
      match (play ρ h p).2 with
      | .ok a => ((play ρ h p).1, .ok a)
      | .error e => ((play ρ h p).1 ++ (play ρ (h ++ (play ρ h p).1) ((g e).getD (raise e))).1,
          (play ρ (h ++ (play ρ h p).1) ((g e).getD (raise e))).2) := by
  induction p generalizing h with
  | ret a => rfl
  | raise e => simp [except]
  | call c k ih =>
    simp only [except, play_call, ih]
    cases hr : (play ρ (h ++ [⟨c, ρ h c⟩]) (k (ρ h c))).2 with
    | ok a => rfl
    | error e => simp

theorem play_finally (ρ : Oracle C A ε) (p : Prog C A ε α) (q : Prog C A ε Unit)
    (h : List (Exchange C A ε)) :
    play ρ h (finally_ p q) =
      ((play ρ h p).1 ++ (play ρ (h ++ (play ρ h p).1) q).1,
        match (play ρ (h ++ (play ρ h p).1) q).2 with
        | .ok _ => (play ρ h p).2
        | .error e => .error e) := by
  induction p generalizing h with
  | ret a =>
    simp only [finally_, play_bind, play_ret, List.nil_append, List.append_nil]
    cases (play ρ h q).2 <;> simp
  | raise e =>
    simp only [finally_, play_bind, play_raise, List.nil_append, List.append_nil]
    cases (play ρ h q).2 <;> simp
  | call c k ih =>
    simp only [finally_, play_call, ih]
    simp

theorem play_issue (ρ : Oracle C A ε) (h : List (Exchange C A ε)) (c : C) :
    play ρ h (issue c) = ([⟨c, ρ h c⟩], ρ h c) := by
  simp only [issue, play_call]
  cases ρ h c <;> rfl

theorem Issues.play {S : C → Prop} {p : Prog C A ε α} (hp : p.Issues S) (ρ : Oracle C A ε)
    (h : List (Exchange C A ε)) : ∀ x ∈ (p.play ρ h).1, S x.cmd := by
  induction p generalizing h with
  | ret a => simp
  | raise e => simp
  | call c k ih =>
    intro x hx
    rw [play_call] at hx
    rcases List.mem_cons.mp hx with rfl | hx
    · exact hp.1
    · exact ih _ (hp.2 _) _ x hx

/-- Seen from outside, the program ends in an exception other than those in `K`
exactly if one of its exchanges was bad. -/
def Surfaces (bad : Exchange C A ε → Prop) (K : ε → Prop) (ρ : Oracle C A ε)
    (h : List (Exchange C A ε)) (p : Prog C A ε α) : Prop :=
  (∃ x ∈ (p.play ρ h).1, bad x) ↔ ∃ e, (p.play ρ h).2 = .error e ∧ ¬K e

section Surfaces

variable {bad : Exchange C A ε → Prop} {K K' : ε → Prop} {ρ : Oracle C A ε}
  {h : List (Exchange C A ε)}

theorem Surfaces.ret (a : α) : Surfaces bad K ρ h (ret a : Prog C A ε α) := by
  simp [Surfaces]

theorem Surfaces.raise {e : ε} (he : K e) : Surfaces bad K ρ h (raise e : Prog C A ε α) := by
  simp [Surfaces, he]

theorem Surfaces.issue {c : C} (hok : ∀ a, ρ h c = .ok a → ¬bad ⟨c, ρ h c⟩)
    (herror : ∀ e, ρ h c = .error e → (bad ⟨c, ρ h c⟩ ↔ ¬K e)) :
    Surfaces bad K ρ h (issue c) := by
  rw [Surfaces, play_issue]
  cases hr : ρ h c with
  | ok a => simpa [hr] using hok a hr
  | error e => simpa [hr] using herror e hr

theorem Surfaces.bind {p : Prog C A ε α} {f : α → Prog C A ε β} (hp : Surfaces bad K ρ h p)
    (hf : ∀ a, Surfaces bad K ρ (h ++ (p.play ρ h).1) (f a)) :
    Surfaces bad K ρ h (Prog.bind p f) := by
  unfold Surfaces at hp ⊢
  rw [play_bind]
  cases hr : (p.play ρ h).2 with
  | error e => simpa [hr] using hp
  | ok a =>
    have hnone : ¬∃ x ∈ (p.play ρ h).1, bad x := by simp [hp, hr]
    have hfa := hf a
    unfold Surfaces at hfa
    simp only [List.mem_append, or_and_right, exists_or, hnone, false_or]
    exact hfa

/-- Where a program is followed by an exception, something in it has to be to blame. -/
theorem Surfaces.bind_raise {p : Prog C A ε α} {f : α → Prog C A ε β} {e : ε}
    (hbad : ∃ x ∈ (p.play ρ h).1, bad x) (hp : ∀ e, (p.play ρ h).2 = .error e → ¬K e)
    (hf : ∀ a, f a = .raise e) (he : ¬K e) : Surfaces bad K ρ h (Prog.bind p f) := by
  obtain ⟨x, hx, hbad⟩ := hbad
  rw [Surfaces, play_bind]
  cases hr : (p.play ρ h).2 with
  | ok a =>
    refine iff_of_true ⟨x, List.mem_append_left _ hx, hbad⟩ ⟨e, ?_, he⟩
    simp only [hf a, play_raise]
  | error e' => exact iff_of_true ⟨x, hx, hbad⟩ ⟨e', rfl, hp e' hr⟩

/-- A handler takes care of the exceptions in `K`, and lets the others pass. -/
theorem Surfaces.except {p : Prog C A ε α} {g : ε → Option (Prog C A ε α)}
    (hp : Surfaces bad K ρ h p) (hpass : ∀ e, ¬K e → g e = none ∧ ¬K' e)
    (hcatch : ∀ e, K e → Surfaces bad K' ρ (h ++ (p.play ρ h).1) ((g e).getD (.raise e))) :
    Surfaces bad K' ρ h (Prog.except p g) := by
  unfold Surfaces at hp ⊢
  rw [play_except]
  cases hr : (p.play ρ h).2 with
  | ok a => simpa [hr] using hp
  | error e =>
    by_cases he : K e
    · have hnone : ¬∃ x ∈ (p.play ρ h).1, bad x := by
        rw [hp, hr]
        rintro ⟨e', ⟨⟩, he'⟩
        exact he' he
      have hq := hcatch e he
      unfold Surfaces at hq
      simp only [List.mem_append, or_and_right, exists_or, hnone, false_or]
      exact hq
    · obtain ⟨hg, he'⟩ := hpass e he
      have hsome : ∃ x ∈ (p.play ρ h).1, bad x := hp.mpr ⟨e, hr, he⟩
      simpa [hg, he'] using hsome

theorem Surfaces.finally_ {p : Prog C A ε α} {q : Prog C A ε Unit}
    (hp : Surfaces bad (fun _ => False) ρ h p)
    (hq : Surfaces bad (fun _ => False) ρ (h ++ (p.play ρ h).1) q) :
    Surfaces bad (fun _ => False) ρ h (Prog.finally_ p q) := by
  unfold Surfaces at hp hq ⊢
  rw [play_finally]
  simp only [List.mem_append, or_and_right, exists_or, hp, hq]
  cases (play ρ (h ++ (p.play ρ h).1) q).2 <;> simp

theorem Surfaces.forEach {f : β → Prog C A ε Unit} {bs : List β}
    (hf : ∀ b ∈ bs, ∀ h, Surfaces bad K ρ h (f b)) : Surfaces bad K ρ h (forEach f bs) := by
  induction bs generalizing h with
  | nil => exact Surfaces.ret ()
  | cons b bs ih =>
    refine (hf b List.mem_cons_self h).bind fun _ => ?_
    exact ih fun b' hb' => hf b' (List.mem_cons_of_mem b hb')

end Surfaces

/-! ## Every permitted answer -/

/-- Whatever the environment answers within `L`, the outcome satisfies `Q`. -/
def Sure (L : (c : C) → Except ε (A c) → Prop) : Prog C A ε α → (Except ε α → Prop) → Prop
  | ret a, Q => Q (.ok a)
  | raise e, Q => Q (.error e)
  | call c k, Q => ∀ r, L c r → Sure L (k r) Q

section Sure

variable {L : (c : C) → Except ε (A c) → Prop}

@[simp] theorem sure_ret {a : α} {Q : Except ε α → Prop} : Sure L (ret a) Q ↔ Q (.ok a) := Iff.rfl

@[simp] theorem sure_raise {e : ε} {Q : Except ε α → Prop} :
    Sure L (raise e) Q ↔ Q (.error e) := Iff.rfl

theorem sure_issue {c : C} {Q : Except ε (A c) → Prop} :
    Sure L (issue c) Q ↔ ∀ r, L c r → Q r := by
  refine forall_congr' fun r => imp_congr_right fun _ => ?_
  cases r <;> exact Iff.rfl

theorem sure_ofExcept {o : Except ε α} {Q : Except ε α → Prop} :
    Sure L (ofExcept o) Q ↔ Q o := by
  cases o <;> exact Iff.rfl

theorem sure_bind {p : Prog C A ε α} {f : α → Prog C A ε β} {Q : Except ε β → Prop} :
    Sure L (bind p f) Q ↔ Sure L p fun r => match r with
      | .ok a => Sure L (f a) Q
      | .error e => Q (.error e) := by
  induction p with
  | ret a => exact Iff.rfl
  | raise e => exact Iff.rfl
  | call c k ih => exact forall_congr' fun r => imp_congr_right fun _ => ih r

theorem sure_except {p : Prog C A ε α} {h : ε → Option (Prog C A ε α)} {Q : Except ε α → Prop} :
    Sure L (except p h) Q ↔ Sure L p fun r => match r with
      | .ok a => Q (.ok a)
      | .error e => Sure L ((h e).getD (raise e)) Q := by
  induction p with
  | ret a => exact Iff.rfl
  | raise e => exact Iff.rfl
  | call c k ih => exact forall_congr' fun r => imp_congr_right fun _ => ih r

theorem sure_lift {D : Type} {B : D → Type}
    {L : (c : C ⊕ D) → Except ε (Sum.elim A B c) → Prop} {p : Prog C A ε α}
    {Q : Except ε α → Prop} :
    Sure L (lift p : Prog (C ⊕ D) (Sum.elim A B) ε α) Q ↔ Sure (fun c => L (.inl c)) p Q := by
  induction p with
  | ret a => exact Iff.rfl
  | raise e => exact Iff.rfl
  | call c k ih => exact forall_congr' fun r => imp_congr_right fun _ => ih r

theorem Sure.mono {p : Prog C A ε α} {Q Q' : Except ε α → Prop} (h : ∀ r, Q r → Q' r)
    (hp : Sure L p Q) : Sure L p Q' := by
  induction p with
  | ret a => exact h _ hp
  | raise e => exact h _ hp
  | call c k ih => exact fun r hr => ih r (hp r hr)

theorem Sure.finally_ {p : Prog C A ε α} {q : Prog C A ε Unit} {Q : Except ε α → Prop}
    (hp : Sure L p fun r => Sure L q fun r' => match r' with
      | .ok _ => Q r
      | .error e => Q (.error e)) : Sure L (Prog.finally_ p q) Q := by
  induction p with
  | ret a => exact sure_bind.mpr (Sure.mono (fun r hr => by cases r <;> exact hr) hp)
  | raise e => exact sure_bind.mpr (Sure.mono (fun r hr => by cases r <;> exact hr) hp)
  | call c k ih => exact fun r hr => ih r (hp r hr)

theorem sure_trivial (p : Prog C A ε α) : Sure L p fun _ => True := by
  induction p with
  | ret a => trivial
  | raise e => trivial
  | call c k ih => exact fun r _ => ih r

/-- In an environment that always has an answer, what is sure of every outcome and
what is sure of the same program again hold together of one of them. -/
theorem Sure.meet {p : Prog C A ε α} {Q Q' : Except ε α → Prop} (hL : ∀ c, ∃ r, L c r)
    (hp : Sure L p Q) (hp' : Sure L p Q') : ∃ r, Q r ∧ Q' r := by
  induction p with
  | ret a => exact ⟨_, hp, hp'⟩
  | raise e => exact ⟨_, hp, hp'⟩
  | call c k ih =>
    obtain ⟨r, hr⟩ := hL c
    exact ih r (hp r hr) (hp' r hr)

/-- A first part that always comes to the same value can be left out. -/
theorem sure_bind_of_sure {p : Prog C A ε α} {f : α → Prog C A ε β} {Q : Except ε β → Prop} {a : α}
    (hL : ∀ c, ∃ r, L c r) (hp : Sure L p fun r => r = .ok a) :
    Sure L (bind p f) Q ↔ Sure L (f a) Q := by
  rw [sure_bind]
  constructor
  · intro h
    obtain ⟨r, rfl, hr⟩ := hp.meet hL h
    exact hr
  · intro h
    refine hp.mono fun r hr => ?_
    rw [hr]
    exact h

end Sure

/-! ## One program alone on a state -/

section Eval

variable {σ : Type} (step : (c : C) → σ → Option (Except ε (A c) × σ))

/-- Run a program alone, with `step` resolving each command. -/
def eval : Prog C A ε α → σ → Option (Except ε α × σ)
  | ret a, s => some (.ok a, s)
  | raise e, s => some (.error e, s)
  | call c k, s => (step c s).bind fun o => eval (k o.1) o.2

@[simp] theorem eval_ret (a : α) (s : σ) :
    eval step (ret a : Prog C A ε α) s = some (.ok a, s) := rfl

@[simp] theorem eval_raise (e : ε) (s : σ) :
    eval step (raise e : Prog C A ε α) s = some (.error e, s) := rfl

theorem eval_bind (p : Prog C A ε α) (f : α → Prog C A ε β) (s : σ) :
    eval step (bind p f) s = (eval step p s).bind fun o => match o.1 with
      | .ok a => eval step (f a) o.2
      | .error e => some (.error e, o.2) := by
  induction p generalizing s with
  | ret a => rfl
  | raise e => rfl
  | call c k ih =>
    simp only [call_bind, eval, Option.bind_assoc]
    exact congrArg _ (funext fun o => ih o.1 o.2)

theorem eval_except (p : Prog C A ε α) (g : ε → Option (Prog C A ε α)) (s : σ) :
    eval step (except p g) s = (eval step p s).bind fun o => match o.1 with
      | .ok a => some (.ok a, o.2)
      | .error e => eval step ((g e).getD (raise e)) o.2 := by
  induction p generalizing s with
  | ret a => rfl
  | raise e => rfl
  | call c k ih =>
    simp only [except, eval, Option.bind_assoc]
    exact congrArg _ (funext fun o => ih o.1 o.2)

theorem eval_finally (p : Prog C A ε α) (q : Prog C A ε Unit) (s : σ) :
    eval step (finally_ p q) s = (eval step p s).bind fun o => (eval step q o.2).bind fun o' =>
      some (match o'.1 with
        | .ok _ => o.1
        | .error e => .error e, o'.2) := by
  induction p generalizing s with
  | ret a =>
    simp only [finally_, eval_bind, eval_ret, Option.bind_some]
    exact congrArg _ (funext fun o' => by cases o'.1 <;> rfl)
  | raise e =>
    simp only [finally_, eval_bind, eval_raise, Option.bind_some]
    exact congrArg _ (funext fun o' => by cases o'.1 <;> rfl)
  | call c k ih =>
    simp only [finally_, eval, Option.bind_assoc]
    exact congrArg _ (funext fun o => ih o.1 o.2)

/-- Run alone, the program comes to an end, and `Q` holds of the outcome. -/
def Ends : Prog C A ε α → (Except ε α → σ → Prop) → σ → Prop
  | ret a, Q, s => Q (.ok a) s
  | raise e, Q, s => Q (.error e) s
  | call c k, Q, s => ∃ r s', step c s = some (r, s') ∧ Ends (k r) Q s'

variable {step} {Q Q' : Except ε α → σ → Prop} {s : σ}

theorem Ends.eval {p : Prog C A ε α} (hp : Ends step p Q s) :
    ∃ r s', Prog.eval step p s = some (r, s') ∧ Q r s' := by
  induction p generalizing s with
  | ret a => exact ⟨.ok a, s, rfl, hp⟩
  | raise e => exact ⟨.error e, s, rfl, hp⟩
  | call c k ih =>
    obtain ⟨r, s', hs, hk⟩ := hp
    obtain ⟨r', t, ht, hQ⟩ := ih r hk
    refine ⟨r', t, ?_, hQ⟩
    simp only [Prog.eval, hs, Option.bind_some]
    exact ht

theorem Ends.mono {p : Prog C A ε α} (h : ∀ r t, Q r t → Q' r t) (hp : Ends step p Q s) :
    Ends step p Q' s := by
  induction p generalizing s with
  | ret a => exact h _ _ hp
  | raise e => exact h _ _ hp
  | call c k ih =>
    obtain ⟨r, s', hs, hk⟩ := hp
    exact ⟨r, s', hs, ih r hk⟩

/-- The rule of sequence, with the condition in the middle named. -/
theorem Ends.bind {p : Prog C A ε α} {f : α → Prog C A ε β} {R : Except ε β → σ → Prop}
    (hp : Ends step p Q s) (herror : ∀ e t, Q (.error e) t → R (.error e) t)
    (hok : ∀ a t, Q (.ok a) t → Ends step (f a) R t) : Ends step (Prog.bind p f) R s := by
  induction p generalizing s with
  | ret a => exact hok a s hp
  | raise e => exact herror e s hp
  | call c k ih =>
    obtain ⟨r, s', hs, hk⟩ := hp
    exact ⟨r, s', hs, ih r hk⟩

theorem Ends.except {p : Prog C A ε α} {g : ε → Option (Prog C A ε α)} (hp : Ends step p Q s)
    (hok : ∀ a t, Q (.ok a) t → Q' (.ok a) t)
    (herror : ∀ e t, Q (.error e) t → Ends step ((g e).getD (raise e)) Q' t) :
    Ends step (Prog.except p g) Q' s := by
  induction p generalizing s with
  | ret a => exact hok a s hp
  | raise e => exact herror e s hp
  | call c k ih =>
    obtain ⟨r, s', hs, hk⟩ := hp
    exact ⟨r, s', hs, ih r hk⟩

/-- A program before and one that comes to an end without an exception after it. -/
theorem Ends.finally_ {p : Prog C A ε α} {q : Prog C A ε Unit} (hp : Ends step p Q s)
    (hq : ∀ r t, Q r t → Ends step q (fun r' u => r' = .ok () ∧ Q' r u) t) :
    Ends step (Prog.finally_ p q) Q' s := by
  have hclose : ∀ (o : Except ε α) (t : σ), Q o t →
      Ends step (Prog.bind q fun _ => ofExcept o) Q' t := by
    intro o t ho
    refine (hq o t ho).bind (fun e u hu => ?_) fun a u hu => ?_
    · cases hu.1
    · cases o <;> exact hu.2
  induction p generalizing s with
  | ret a => exact hclose (.ok a) s hp
  | raise e => exact hclose (.error e) s hp
  | call c k ih =>
    obtain ⟨r, s', hs, hk⟩ := hp
    exact ⟨r, s', hs, ih r hk⟩

theorem ends_issue {c : C} {r : Except ε (A c)} {s' : σ} {R : Except ε (A c) → σ → Prop}
    (hs : step c s = some (r, s')) (hR : R r s') : Ends step (issue c) R s := by
  refine ⟨r, s', hs, ?_⟩
  cases r <;> exact hR

/-- A command that answers, and what comes after it. -/
theorem ends_issue_bind {c : C} {a : A c} {s' : σ} {f : A c → Prog C A ε α}
    (hs : step c s = some (.ok a, s')) (hf : Ends step (f a) Q s') :
    Ends step (Prog.bind (issue c) f) Q s := ⟨.ok a, s', hs, hf⟩

end Eval

/-! ## Rely and guarantee

`run c s r s'` says that the program's own command `c`, issued in state `s`, may
be answered by `r` and leave `s'`.  `I` is kept by everybody, `R` bounds what
the others do between two of the program's commands, and `G` is what the
program promises of each of its own. -/

section RelyGuarantee

variable {σ : Type}

/-- Who keeps what while a program runs. -/
structure Pact (C : Type) (A : C → Type) (ε σ : Type) where
  run : (c : C) → σ → Except ε (A c) → σ → Prop
  I : σ → Prop
  R : σ → σ → Prop
  G : σ → σ → Prop

/-- The weakest precondition of `p` for the postcondition `Q`, read in a state
where `p` is about to move. -/
def wp (P : Pact C A ε σ) : Prog C A ε α → (Except ε α → σ → Prop) → σ → Prop
  | ret a, Q, s => Q (.ok a) s
  | raise e, Q, s => Q (.error e) s
  | call c k, Q, s => ∀ r s', P.run c s r s' →
      P.I s' ∧ P.G s s' ∧ ∀ t, P.I t → P.R s' t → wp P (k r) Q t

variable {P : Pact C A ε σ} {Q Q' : Except ε α → σ → Prop} {s : σ}

@[simp] theorem wp_ret (a : α) : wp P (ret a) Q s ↔ Q (.ok a) s := Iff.rfl

@[simp] theorem wp_raise (e : ε) : wp P (raise e) Q s ↔ Q (.error e) s := Iff.rfl

theorem wp_mono {p : Prog C A ε α} (h : ∀ r t, Q r t → Q' r t) (hp : wp P p Q s) :
    wp P p Q' s := by
  induction p generalizing s with
  | ret a => exact h _ _ hp
  | raise e => exact h _ _ hp
  | call c k ih =>
    intro r s' hr
    obtain ⟨hI, hG, hk⟩ := hp r s' hr
    exact ⟨hI, hG, fun t ht hR => ih r (hk t ht hR)⟩

theorem wp_bind {p : Prog C A ε α} {f : α → Prog C A ε β} {Q : Except ε β → σ → Prop}
    (hp : wp P p (fun r t => match r with
      | .ok a => wp P (f a) Q t
      | .error e => Q (.error e) t) s) :
    wp P (bind p f) Q s := by
  induction p generalizing s with
  | ret a => exact hp
  | raise e => exact hp
  | call c k ih =>
    intro r s' hr
    obtain ⟨hI, hG, hk⟩ := hp r s' hr
    exact ⟨hI, hG, fun t ht hR => ih r (hk t ht hR)⟩

/-- The rule of sequence, with the condition in the middle named. -/
theorem wp_seq {p : Prog C A ε α} {f : α → Prog C A ε β} {L : Except ε α → σ → Prop}
    {Q : Except ε β → σ → Prop} (hp : wp P p L s)
    (herror : ∀ e t, L (.error e) t → Q (.error e) t)
    (hok : ∀ a t, L (.ok a) t → wp P (f a) Q t) : wp P (bind p f) Q s := by
  refine wp_bind (wp_mono (fun r t hr => ?_) hp)
  cases r with
  | ok a => exact hok a t hr
  | error e => exact herror e t hr

theorem wp_except {p : Prog C A ε α} {h : ε → Option (Prog C A ε α)}
    (hp : wp P p (fun r t => match r with
      | .ok a => Q (.ok a) t
      | .error e => wp P ((h e).getD (raise e)) Q t) s) :
    wp P (except p h) Q s := by
  induction p generalizing s with
  | ret a => exact hp
  | raise e => exact hp
  | call c k ih =>
    intro r s' hr
    obtain ⟨hI, hG, hk⟩ := hp r s' hr
    exact ⟨hI, hG, fun t ht hR => ih r (hk t ht hR)⟩

/-- The rule for a handler that catches what passes a test, with the condition at
the end of the body named. -/
theorem wp_catch {p : Prog C A ε α} {test : ε → Prop} [DecidablePred test] {q : ε → Prog C A ε α}
    {L : Except ε α → σ → Prop} (hp : wp P p L s) (hok : ∀ a t, L (.ok a) t → Q (.ok a) t)
    (hcatch : ∀ e t, test e → L (.error e) t → wp P (q e) Q t)
    (hpass : ∀ e t, ¬test e → L (.error e) t → Q (.error e) t) :
    wp P (except p fun e => if test e then some (q e) else none) Q s := by
  refine wp_except (wp_mono (fun r t hr => ?_) hp)
  cases r with
  | ok a => exact hok a t hr
  | error e =>
    by_cases he : test e
    · simp only [if_pos he]
      exact hcatch e t he hr
    · simp only [if_neg he]
      exact hpass e t he hr

theorem wp_finally {p : Prog C A ε α} {q : Prog C A ε Unit}
    (hp : wp P p (fun r t => wp P q (fun r' u => match r' with
      | .ok _ => Q r u
      | .error e => Q (.error e) u) t) s) :
    wp P (finally_ p q) Q s := by
  induction p generalizing s with
  | ret a => exact wp_bind (wp_mono (fun r t hr => by cases r <;> exact hr) hp)
  | raise e => exact wp_bind (wp_mono (fun r t hr => by cases r <;> exact hr) hp)
  | call c k ih =>
    intro r s' hr
    obtain ⟨hI, hG, hk⟩ := hp r s' hr
    exact ⟨hI, hG, fun t ht hR => ih r (hk t ht hR)⟩

theorem wp_issue {c : C} {Q : Except ε (A c) → σ → Prop}
    (h : ∀ r s', P.run c s r s' → P.I s' ∧ P.G s s' ∧ ∀ t, P.I t → P.R s' t → Q r t) :
    wp P (issue c) Q s := by
  intro r s' hr
  obtain ⟨hI, hG, hk⟩ := h r s' hr
  refine ⟨hI, hG, fun t ht hR => ?_⟩
  cases r <;> exact hk t ht hR

theorem wp_ofExcept {o : Except ε α} (h : ∀ r, r = o → Q r s) : wp P (ofExcept o) Q s := by
  cases o <;> exact h _ rfl

/-- The frame rule: what neither side's moves can falsify survives the program. -/
theorem wp_frame {L : σ → Prop} {p : Prog C A ε α} (hG : ∀ s t, L s → P.G s t → L t)
    (hR : ∀ s t, L s → P.R s t → L t) (hp : wp P p Q s) (hs : L s) :
    wp P p (fun r t => Q r t ∧ L t) s := by
  induction p generalizing s with
  | ret a => exact ⟨hp, hs⟩
  | raise e => exact ⟨hp, hs⟩
  | call c k ih =>
    intro r s' hr
    obtain ⟨hI, hg, hk⟩ := hp r s' hr
    exact ⟨hI, hg, fun t ht hst => ih r (hk t ht hst) (hR s' t (hG s s' hs hg) hst)⟩

/-- A program that follows a protocol is correct if every phase can be read as an
assertion that each command allowed in it carries over to the next phase. -/
theorem wp_of_follows {L : Protocol C A ε} {J : L.Phase → σ → Prop} {φ : L.Phase}
    {p : Prog C A ε α} {F : Except ε α → L.Phase → Prop} (hp : p.Follows L φ F)
    (hcmd : ∀ φ c s r s', L.allows φ c → J φ s → P.run c s r s' →
      P.I s' ∧ P.G s s' ∧ ∀ t, P.I t → P.R s' t → J (L.next φ c r) t)
    (hs : J φ s) : wp P p (fun r t => ∃ φ, F r φ ∧ J φ t) s := by
  induction p generalizing s φ with
  | ret a => exact ⟨φ, hp, hs⟩
  | raise e => exact ⟨φ, hp, hs⟩
  | call c k ih =>
    intro r s' hr
    obtain ⟨hI, hG, hJ⟩ := hcmd φ c s r s' hp.1 hs hr
    exact ⟨hI, hG, fun t ht hR => ih r (hp.2 r) (hJ t ht hR)⟩

/-- What every command of a program keeps, the program keeps. -/
theorem wp_of_issues {S : C → Prop} {L : σ → Prop} {p : Prog C A ε α} (hp : p.Issues S)
    (hcmd : ∀ c s r s', S c → L s → P.run c s r s' →
      P.I s' ∧ P.G s s' ∧ ∀ t, P.I t → P.R s' t → L t)
    (hs : L s) : wp P p (fun _ t => L t) s :=
  wp_mono (fun _ _ ⟨_, _, h⟩ => h)
    (wp_of_follows (J := fun _ => L) hp (fun _ c s r s' => hcmd c s r s') hs)

/-- What is sure of the outcome, whatever the answers, needs no invariant. -/
theorem wp_of_sure {L : (c : C) → Except ε (A c) → Prop} {p : Prog C A ε α}
    {Q : Except ε α → Prop} (hp : Sure L p Q)
    (hcmd : ∀ c s r s', P.run c s r s' → L c r ∧ P.I s' ∧ P.G s s') :
    wp P p (fun r _ => Q r) s := by
  induction p generalizing s with
  | ret a => exact hp
  | raise e => exact hp
  | call c k ih =>
    intro r s' hr
    obtain ⟨hL, hI, hG⟩ := hcmd c s r s' hr
    exact ⟨hI, hG, fun t _ _ => ih r (hp r hL)⟩

/-- A program keeps its meaning among more commands and in a larger state, of which
`view` is the part it knows, and nothing it does falsifies `L`. -/
theorem wp_lift {D : Type} {B : D → Type} {τ : Type} {P' : Pact (C ⊕ D) (Sum.elim A B) ε τ}
    {view : τ → σ} {L : τ → Prop} {p : Prog C A ε α} {s : τ}
    (hI : ∀ s, P'.I s ↔ P.I (view s)) (hR : ∀ s t, P'.R s t → P.R (view s) (view t))
    (hLR : ∀ s t, L s → P'.R s t → L t)
    (hrun : ∀ c s r s', L s → P'.run (.inl c) s r s' → P.run c (view s) r (view s') ∧ L s' ∧
      (P.G (view s) (view s') → P'.G s s'))
    (hp : wp P p Q (view s)) (hs : L s) :
    wp P' p.lift (fun r t => Q r (view t) ∧ L t) s := by
  induction p generalizing s with
  | ret a => exact ⟨hp, hs⟩
  | raise e => exact ⟨hp, hs⟩
  | call c k ih =>
    intro r s' hr
    obtain ⟨hrun', hs', hG⟩ := hrun c s r s' hs hr
    obtain ⟨hI', hg, hk⟩ := hp r (view s') hrun'
    refine ⟨(hI s').mpr hI', hG hg, fun t ht hst => ?_⟩
    exact ih r (hk (view t) ((hI t).mp ht) (hR s' t hst)) (hLR s' t hs' hst)

/-- A loop whose invariant speaks of the elements that are left. -/
theorem wp_forEach_rest {f : β → Prog C A ε Unit} {L : List β → σ → Prop}
    {Q : Except ε Unit → σ → Prop} (hdone : ∀ t, L [] t → Q (.ok ()) t)
    (hf : ∀ b bs t, L (b :: bs) t → wp P (f b) (fun r u => match r with
      | .ok _ => L bs u
      | .error e => Q (.error e) u) t) (bs : List β) (hL : L bs s) :
    wp P (forEach f bs) Q s := by
  induction bs generalizing s with
  | nil => exact hdone s hL
  | cons b bs ih =>
    refine wp_bind (wp_mono (fun r t hr => ?_) (hf b bs s hL))
    cases r with
    | ok _ => exact ih hr
    | error e => exact hr

/-- A loop keeps its invariant `L` if every round does. -/
theorem wp_forEach {f : β → Prog C A ε Unit} {L : σ → Prop} {Q : Except ε Unit → σ → Prop}
    (hdone : ∀ t, L t → Q (.ok ()) t) (bs : List β)
    (hf : ∀ b ∈ bs, ∀ t, L t → wp P (f b) (fun r u => match r with
      | .ok _ => L u
      | .error e => Q (.error e) u) t) (hL : L s) :
    wp P (forEach f bs) Q s := by
  refine wp_forEach_rest (L := fun rest t => (∀ b ∈ rest, b ∈ bs) ∧ L t) (fun t ht => hdone t ht.2)
    (fun b rest t ht => ?_) bs ⟨fun _ hb => hb, hL⟩
  refine wp_mono (fun r u hr => ?_) (hf b (ht.1 b List.mem_cons_self) t ht.2)
  cases r with
  | ok _ => exact ⟨fun b' hb' => ht.1 b' (List.mem_cons_of_mem b hb'), hr⟩
  | error e => exact hr

end RelyGuarantee

end Prog

end Concurrent
