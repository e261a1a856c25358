/-
What rotation is for.

A ledger says of every token that was ever issued whose it is, which token it was
exchanged for, and whether it is still good.  In one step any number of tokens may
die, and at most one may be added; a token that is added in exchange for another
must find that one alive and leaves it dead.  Nothing else is said about who takes
the steps, or how.

Two facts follow for every run.  No token is exchanged twice, because it is dead
after the first time.  And once a set of tokens is dead together with everything
exchanged for them, directly or in several steps, nothing is ever exchanged for any
of these again.
-/
import Mathlib.Logic.Relation
import Mathlib.Data.Set.Basic

namespace AdaptiveGateway
namespace Auth

structure Token (κ υ : Type) where
  user : υ
  /-- The token it was exchanged for, or none if it came with a login. -/
  parent : Option κ
  live : Prop

abbrev Ledger (κ υ : Type) := κ → Option (Token κ υ)

namespace Ledger

variable {κ υ : Type} {L L' : Ledger κ υ} {F : Set κ} {k c c' p : κ} {e e' : Token κ υ}

structure Step (L L' : Ledger κ υ) : Prop where
  keeps : ∀ k e, L k = some e →
    ∃ e', L' k = some e' ∧ e'.user = e.user ∧ e'.parent = e.parent ∧ (e'.live → e.live)
  spends : ∀ c e p, L c = none → L' c = some e → e.parent = some p →
    ∃ d d', L p = some d ∧ d.live ∧ d.user = e.user ∧ L' p = some d' ∧ ¬d'.live
  single : ∀ c c' e e', L c = none → L c' = none → L' c = some e → L' c' = some e' → c = c'

abbrev Steps : Ledger κ υ → Ledger κ υ → Prop := Relation.ReflTransGen Step

structure WellFormed (L : Ledger κ υ) : Prop where
  spent : ∀ c e p, L c = some e → e.parent = some p →
    ∃ d, L p = some d ∧ ¬d.live ∧ d.user = e.user
  unique : ∀ c c' e e' p, L c = some e → L c' = some e' → e.parent = some p →
    e'.parent = some p → c = c'

theorem Step.refl (L : Ledger κ υ) : Step L L where
  keeps _ e h := ⟨e, h, rfl, rfl, id⟩
  spends _ _ _ h h' := by
    rw [h] at h'
    cases h'
  single _ _ _ _ h _ h' _ := by
    rw [h] at h'
    cases h'

/-- What is in the ledger after a step was there before, or the step has added it. -/
theorem Step.cases_on_before (h : Step L L') (hc : L' c = some e) :
    L c = none ∨ ∃ d, L c = some d ∧ e.user = d.user ∧ e.parent = d.parent ∧ (e.live → d.live) := by
  cases hL : L c with
  | none => exact Or.inl rfl
  | some d =>
    obtain ⟨e', he', hrest⟩ := h.keeps c d hL
    rw [hc] at he'
    cases he'
    exact Or.inr ⟨d, rfl, hrest⟩

theorem WellFormed.step (hL : L.WellFormed) (h : Step L L') : L'.WellFormed where
  spent c e p hc hp := by
    rcases h.cases_on_before hc with hnew | ⟨d, hd, huser, hparent, -⟩
    · obtain ⟨d, d', hd, -, huser, hd', hdead⟩ := h.spends c e p hnew hc hp
      obtain ⟨d'', hd'', huser', -, -⟩ := h.keeps p d hd
      rw [hd'] at hd''
      cases hd''
      exact ⟨d', hd', hdead, huser'.trans huser⟩
    · obtain ⟨b, hb, hdead, hbu⟩ := hL.spent c d p hd (hparent ▸ hp)
      obtain ⟨b', hb', hbu', -, hlive⟩ := h.keeps p b hb
      exact ⟨b', hb', fun hl => hdead (hlive hl), (hbu'.trans hbu).trans huser.symm⟩
  unique c c' e e' p hc hc' hp hp' := by
    -- An old exchange has left the token dead, and a new one finds it alive.
    have hclash : ∀ a a' : κ, ∀ b b' : Token κ υ, L a = none → L' a = some b →
        b.parent = some p → L a' = some b' → b'.parent = some p → False := by
      intro a a' b b' hnone ha hbp ha' hbp'
      obtain ⟨d, -, hd, hlive, -⟩ := h.spends a b p hnone ha hbp
      obtain ⟨d', hd', hdead, -⟩ := hL.spent a' b' p ha' hbp'
      rw [hd] at hd'
      cases hd'
      exact hdead hlive
    rcases h.cases_on_before hc with hnew | ⟨d, hd, -, hparent, -⟩
    · rcases h.cases_on_before hc' with hnew' | ⟨d', hd', -, hparent', -⟩
      · exact h.single c c' e e' hnew hnew' hc hc'
      · exact (hclash c c' e d' hnew hc hp hd' (hparent' ▸ hp')).elim
    · rcases h.cases_on_before hc' with hnew' | ⟨d', hd', -, hparent', -⟩
      · exact (hclash c' c e' d hnew' hc' hp' hd (hparent ▸ hp)).elim
      · exact hL.unique c c' d d' p hd hd' (hparent ▸ hp) (hparent' ▸ hp')

/-! ## Families -/

/-- The tokens of `F` and those exchanged for them, directly or in several steps. -/
inductive Descends (L : Ledger κ υ) (F : Set κ) : κ → Prop where
  | root {k : κ} : k ∈ F → Descends L F k
  | exchanged {c p : κ} {e : Token κ υ} :
      L c = some e → e.parent = some p → Descends L F p → Descends L F c

/-- A set of tokens is dead with everything exchanged for them. -/
def Doomed (L : Ledger κ υ) (F : Set κ) : Prop :=
  ∀ k, L.Descends F k → ∃ e, L k = some e ∧ ¬e.live

theorem Doomed.exchanged_before (hF : L.Doomed F) (h : Step L L') (hc : L' c = some e)
    (hp : e.parent = some p) (hd : L.Descends F p) : ∃ d, L c = some d ∧ d.parent = some p := by
  rcases h.cases_on_before hc with hnew | ⟨d, hd', -, hparent, -⟩
  · obtain ⟨b, -, hb, hlive, -⟩ := h.spends c e p hnew hc hp
    obtain ⟨b', hb', hdead⟩ := hF p hd
    rw [hb] at hb'
    cases hb'
    exact absurd hlive hdead
  · exact ⟨d, hd', hparent ▸ hp⟩

/-- A doomed family does not grow. -/
theorem Doomed.descends_before (hF : L.Doomed F) (h : Step L L') (hk : L'.Descends F k) :
    L.Descends F k := by
  induction hk with
  | root hk => exact .root hk
  | exchanged hc hp _ ih =>
    obtain ⟨d, hd, hparent⟩ := hF.exchanged_before h hc hp ih
    exact .exchanged hd hparent ih

theorem Doomed.step (hF : L.Doomed F) (h : Step L L') : L'.Doomed F := by
  intro k hk
  obtain ⟨e, he, hdead⟩ := hF k (hF.descends_before h hk)
  obtain ⟨e', he', -, -, hlive⟩ := h.keeps k e he
  exact ⟨e', he', fun hl => hdead (hlive hl)⟩

theorem Doomed.steps (hF : L.Doomed F) (h : Steps L L') : L'.Doomed F := by
  induction h with
  | refl => exact hF
  | tail _ hstep ih => exact ih.step hstep

/-- Whatever is found exchanged for a token of a doomed family was so already when
the family died. -/
theorem Doomed.exchanged_steps (hF : L.Doomed F) (h : Steps L L') (hc : L' c = some e)
    (hp : e.parent = some p) (hd : L'.Descends F p) : ∃ d, L c = some d ∧ d.parent = some p := by
  induction h generalizing e with
  | refl => exact ⟨e, hc, hp⟩
  | tail hsteps hstep ih =>
    have hM := hF.steps hsteps
    have hdM := hM.descends_before hstep hd
    obtain ⟨d, hd', hparent⟩ := hM.exchanged_before hstep hc hp hdM
    exact ih hd' hparent hdM

end Ledger

end Auth
end AdaptiveGateway
