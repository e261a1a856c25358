/-
One program that can be interrupted at every command.

A command takes effect, or raises; and where it takes effect an exception may still come
between the effect and the rest of the program.  The program can be stopped for good at any
moment, so what is to hold of a stopped program has to hold of every state on the way.

`Triple I pre p post` says that `p`, started where `I` and `pre` hold, keeps `I` all the
time, whatever happens, and reaches `post` if it returns.
-/
import AdaptiveGateway.Concurrent.Pool

namespace Concurrent
namespace Solo

variable {C : Type} {A : C → Type} {ε α β σ δ : Type}

/-- How a command comes out: the data that it depends on, and an exception that comes
before or, with `true`, after its effect. -/
structure Draw (δ ε : Type) where
  data : δ
  raised : Option (ε × Bool)

/-- What a command does, or the exception that it raises by itself. -/
abbrev Perform (C : Type) (A : C → Type) (ε σ δ : Type) :=
  (c : C) → δ → σ → Except ε (A c × σ)

variable (perform : Perform C A ε σ δ)

def exec (c : C) (d : Draw δ ε) (s : σ) : Except ε (A c) × σ :=
  match perform c d.data s with
  | .error e => (.error e, s)
  | .ok (a, t) =>
    match d.raised with
    | none => (.ok a, t)
    | some (e, true) => (.error e, t)
    | some (e, false) => (.error e, s)

def machine (p : Prog C A ε α) : Machine Unit C A ε α σ (Draw δ ε) Empty where
  exec _ c d s := some (exec perform c d s)
  env e _ := e.elim
  drop _ s := s
  boot _ := p
  again _ _ := none

/-- The states in which the program can be stopped. -/
def Reaches (p : Prog C A ε α) (s t : σ) : Prop :=
  ∃ q, (machine perform p).Reach .any ((machine perform p).start s) q ∧ q.state = t

variable {perform}

theorem exec_cases {c : C} {d : Draw δ ε} {s t : σ} {r : Except ε (A c)}
    (h : exec perform c d s = (r, t)) : (∃ e, r = .error e ∧ t = s) ∨
      ∃ a, perform c d.data s = .ok (a, t) ∧ (r = .ok a ∨ ∃ e, r = .error e) := by
  rw [exec] at h
  split at h
  next e hperform =>
    cases h
    exact .inl ⟨e, rfl, rfl⟩
  next a u hperform =>
    split at h
    next =>
      cases h
      exact .inr ⟨a, hperform, .inl rfl⟩
    next e _ =>
      cases h
      exact .inr ⟨a, hperform, .inr ⟨e, rfl⟩⟩
    next e _ =>
      cases h
      exact .inl ⟨e, rfl, rfl⟩

section

variable (perform) (I : σ → Prop)

/-- What the program owes to its surroundings: nothing but the invariant. -/
def pact : Prog.Pact C A ε σ where
  run c s r t := ∃ d, exec perform c d s = (r, t)
  I := I
  R s t := s = t
  G _ _ := True

def contract (p : Prog C A ε α) : Contract (machine perform p) .any where
  I := I
  R _ s t := s = t
  G _ _ _ := True
  Q _ _ _ := True
  refl _ _ := rfl
  trans _ _ _ _ := Eq.trans
  others _ _ _ _ hij := absurd rfl hij
  env e := e.elim
  crash _ _ _ hI := ⟨hI, fun _ hij => absurd rfl hij⟩

variable {perform I} in
theorem wp_contract {p : Prog C A ε α} {q : Prog C A ε β} {Q : Except ε β → σ → Prop} {s : σ}
    (h : q.wp (pact perform I) Q s) : q.wp ((contract perform I p).pact ()) Q s := by
  induction q generalizing s with
  | ret a => exact h
  | raise e => exact h
  | call c k ih =>
    intro r t hrun
    obtain ⟨d, -, -, hd⟩ := hrun
    obtain ⟨hI, hG, hk⟩ := h r t ⟨d, Option.some.inj hd⟩
    exact ⟨hI, hG, fun u hu hR => ih r (hk u hu hR)⟩

def Triple (pre : σ → Prop) (p : Prog C A ε α) (post : α → σ → Prop) : Prop :=
  ∀ s, I s → pre s → p.wp (pact perform I) (fun r t => I t ∧ ∀ a, r = .ok a → post a t) s

end

section

variable {I : σ → Prop} {pre : σ → Prop} {p : Prog C A ε α} {post : α → σ → Prop}

/-- The invariant holds wherever the program is stopped. -/
theorem Triple.sound (h : Triple perform I pre p post) {s t : σ} (hI : I s) (hpre : pre s)
    (ht : Reaches perform p s t) : I t := by
  obtain ⟨q, hq, rfl⟩ := ht
  refine ((contract perform I p).sound hI (fun _ u hu hR => ?_) (fun _ _ _ _ hnone => ?_) hq).1
  · obtain rfl : s = u := hR
    exact Prog.wp_mono (fun _ _ _ => trivial) (wp_contract (h s hI hpre))
  · cases hnone

theorem Triple.ret (a : α) (h : ∀ s, I s → pre s → post a s) :
    Triple perform I pre (.ret a) post := fun s hI hpre =>
  ⟨hI, fun b hb => by cases hb; exact h s hI hpre⟩

theorem Triple.raise (e : ε) : Triple perform I pre (.raise e : Prog C A ε α) post :=
  fun s hI _ => ⟨hI, fun a ha => by cases ha⟩

/-- A command: its effect keeps the invariant. -/
theorem Triple.issue {c : C} {post : A c → σ → Prop}
    (h : ∀ d s a t, I s → pre s → perform c d s = .ok (a, t) → I t ∧ post a t) :
    Triple perform I pre (Prog.issue c) post := by
  intro s hI hpre
  refine Prog.wp_issue fun r t hrun => ?_
  obtain ⟨d, hd⟩ := hrun
  obtain ⟨e, rfl, rfl⟩ | ⟨a, hperform, hr⟩ := exec_cases hd
  · refine ⟨hI, trivial, fun u hu _ => ⟨hu, fun a ha => ?_⟩⟩
    cases ha
  · obtain ⟨ht, hpost⟩ := h d.data s a t hI hpre hperform
    refine ⟨ht, trivial, fun u _ htu => ?_⟩
    obtain rfl : t = u := htu
    refine ⟨ht, fun b hb => ?_⟩
    obtain rfl | ⟨e, rfl⟩ := hr
    · cases hb
      exact hpost
    · cases hb

theorem Triple.bind {f : α → Prog C A ε β} {last : β → σ → Prop}
    (hp : Triple perform I pre p post) (hf : ∀ a, Triple perform I (post a) (f a) last) :
    Triple perform I pre (Prog.bind p f) last := by
  intro s hI hpre
  refine Prog.wp_seq (hp s hI hpre) (fun e t ht => ⟨ht.1, fun a ha => ?_⟩) fun a t ht => ?_
  · cases ha
  · exact hf a t ht.1 (ht.2 a rfl)

/-- A handler that catches everything has to do with the invariant alone. -/
theorem Triple.catch {h : ε → Prog C A ε α} (hp : Triple perform I pre p post)
    (hh : ∀ e, Triple perform I (fun _ => True) (h e) post) :
    Triple perform I pre (Prog.except p fun e => some (h e)) post := by
  intro s hI hpre
  refine Prog.wp_except (Prog.wp_mono (fun r t ht => ?_) (hp s hI hpre))
  cases r with
  | ok a => exact ⟨ht.1, fun b hb => ht.2 b hb⟩
  | error e => exact hh e t ht.1 trivial

theorem Triple.mono {pre' : σ → Prop} {post' : α → σ → Prop} (h : Triple perform I pre p post)
    (hpre : ∀ s, I s → pre' s → pre s) (hpost : ∀ a s, I s → post a s → post' a s) :
    Triple perform I pre' p post' := fun s hI hpre' =>
  Prog.wp_mono (fun _ t ht => ⟨ht.1, fun a ha => hpost a t ht.1 (ht.2 a ha)⟩)
    (h s hI (hpre s hI hpre'))

/-- A loop, with what holds after each of its rounds. -/
theorem Triple.forEach {f : β → Prog C A ε Unit} {J : List β → σ → Prop}
    (hf : ∀ done b, Triple perform I (J done) (f b) fun _ => J (done ++ [b])) (done bs : List β) :
    Triple perform I (J done) (Prog.forEach f bs) fun _ => J (done ++ bs) := by
  induction bs generalizing done with
  | nil =>
    refine Triple.ret () fun s _ hs => ?_
    rwa [List.append_nil]
  | cons b bs ih =>
    refine (hf done b).bind fun _ => (ih (done ++ [b])).mono (fun _ _ h => h) fun _ s _ hs => ?_
    rwa [List.append_assoc] at hs

end

/-! ## Runs that nothing interrupts -/

section

variable (perform) (data : C → δ)

/-- With these data, the program returns `a` and leaves `t`. -/
def Returns (p : Prog C A ε α) (s : σ) (a : α) (t : σ) : Prop :=
  p.Ends (fun c s => some (exec perform c ⟨data c, none⟩ s)) (fun r u => r = .ok a ∧ u = t) s

end

section

variable {data : C → δ} {p : Prog C A ε α} {s t u : σ} {a : α}

theorem exec_ok {c : C} {a : A c} (h : perform c (data c) s = .ok (a, t)) :
    exec perform c ⟨data c, none⟩ s = (.ok a, t) := by
  rw [exec, h]

theorem Returns.ret (a : α) (s : σ) : Returns perform data (.ret a) s a s := ⟨rfl, rfl⟩

theorem Returns.issue {c : C} {a : A c} (h : perform c (data c) s = .ok (a, t)) :
    Returns perform data (Prog.issue c) s a t :=
  Prog.ends_issue (congrArg some (exec_ok h)) ⟨rfl, rfl⟩

theorem Returns.bind {f : α → Prog C A ε β} {b : β} (hp : Returns perform data p s a t)
    (hf : Returns perform data (f a) t b u) : Returns perform data (Prog.bind p f) s b u := by
  refine Prog.Ends.bind hp (fun e v hv => ?_) fun a' v hv => ?_
  · cases hv.1
  · obtain ⟨ha, rfl⟩ := hv
    cases ha
    exact hf

theorem Returns.except {h : ε → Option (Prog C A ε α)} (hp : Returns perform data p s a t) :
    Returns perform data (Prog.except p h) s a t := by
  refine Prog.Ends.except hp (fun _ _ hv => hv) fun e v hv => ?_
  cases hv.1

/-- A loop, with the state after each of its rounds. -/
theorem Returns.forEach {f : β → Prog C A ε Unit} {S : List β → σ} {bs : List β}
    (hf : ∀ done, ∀ b ∈ bs, Returns perform data (f b) (S done) () (S (done ++ [b]))) :
    Returns perform data (Prog.forEach f bs) (S []) () (S bs) := by
  suffices hrest : ∀ rest done, done ++ rest = bs →
      Returns perform data (Prog.forEach f rest) (S done) () (S bs) from hrest bs [] rfl
  intro rest
  induction rest with
  | nil =>
    intro done hdone
    rw [List.append_nil] at hdone
    rw [hdone]
    exact Returns.ret () (S bs)
  | cons b rest ih =>
    intro done hdone
    have hmem : b ∈ bs := hdone ▸ List.mem_append_right done List.mem_cons_self
    refine (hf done b hmem).bind (ih (done ++ [b]) ?_)
    rw [← hdone, List.append_assoc]
    rfl

theorem reach_of_ends {q : Prog C A ε α} {Q : Except ε α → σ → Prop}
    (hq : q.Ends (fun c s => some (exec perform c ⟨data c, none⟩ s)) Q s) :
    ∃ r t, Q r t ∧ ∃ l, (machine perform p).Reach .any ⟨s, fun _ => some q⟩ l ∧ l.state = t := by
  induction q generalizing s with
  | ret a => exact ⟨.ok a, s, hq, _, .here, rfl⟩
  | raise e => exact ⟨.error e, s, hq, _, .here, rfl⟩
  | call c k ih =>
    obtain ⟨r, s', hs, hk⟩ := hq
    obtain ⟨r', t, hQ, l, hreach, hl⟩ := ih r hk
    refine ⟨r', t, hQ, l, Machine.Reach.trans (.step (l := .act () ⟨data c, none⟩) .here
      (Guard.any_allows _ _) ?_) hreach, hl⟩
    have hprog : Function.update (fun _ : Unit => some (Prog.call c k)) () (some (k r)) =
        fun _ => some (k r) := funext fun _ => Function.update_self _ _ _
    simp only [Machine.step, machine, hs, Option.map_some, hprog]

theorem Returns.reaches (h : Returns perform data p s a t) : Reaches perform p s t := by
  obtain ⟨r, u, ⟨-, rfl⟩, l, hreach, hl⟩ := reach_of_ends (p := p) h
  exact ⟨l, hreach, hl⟩

end

end Solo
end Concurrent
