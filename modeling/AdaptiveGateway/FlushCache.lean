/-
Flushing the response cache.

The endpoint iterates over the keys with SCAN and deletes what it is given, while
others go on writing keys and keys expire.  All that SCAN promises is that a key which
exists during the whole iteration is returned, and that what is returned matches the
pattern and existed at that moment.

The matcher of Redis is a parameter, and `IsGlob` what its documentation says of the
characters that a pattern of the endpoint can have.
-/
import AdaptiveGateway.Proxy.Cache
import Mathlib.Logic.Function.Basic

namespace AdaptiveGateway
namespace FlushCache

open Codec

abbrev Key := Text

/-! ## Patterns -/

variable {glob : Text → Key → Bool}

structure World where
  /-- The keys that exist. -/
  keys : Key → Bool
  /-- What SCAN has returned and is still to be deleted. -/
  batch : List Key := []
  /-- The cursor is back at zero. -/
  complete : Bool := false
  deleted : Nat := 0
  /-- The keys that have existed since the iteration began. -/
  lasting : Key → Bool
  returned : List Key := []
  /-- The keys that the endpoint has deleted, and those that others have written or that
  have gone otherwise. -/
  removed : List Key := []
  written : List Key := []
  expired : List Key := []

def start (keys : Key → Bool) : World := { keys := keys, lasting := keys }

/-- One command of the endpoint, or something that happens besides. -/
inductive Step (glob : Text → Key → Bool) (pattern : Text) : World → World → Prop where
  | scan {s : World} {reply : List Key} {zero : Bool} : s.batch = [] → s.complete = false →
      (∀ k ∈ reply, glob pattern k = true ∧ s.keys k = true) →
      (zero = true → ∀ k, s.lasting k = true → glob pattern k = true → k ∈ s.returned ++ reply) →
      Step glob pattern s
        { s with batch := reply, complete := zero, returned := s.returned ++ reply }
  | delete {s : World} {k : Key} {rest : List Key} : s.batch = k :: rest →
      Step glob pattern s
        { s with
          keys := Function.update s.keys k false
          lasting := Function.update s.lasting k false
          batch := rest
          deleted := s.deleted + 1
          removed := k :: s.removed }
  | write {s : World} (k : Key) : Step glob pattern s
      { s with keys := Function.update s.keys k true, written := k :: s.written }
  | expire {s : World} (k : Key) : Step glob pattern s
      { s with
        keys := Function.update s.keys k false
        lasting := Function.update s.lasting k false
        expired := k :: s.expired }

abbrev Steps (glob : Text → Key → Bool) (pattern : Text) : World → World → Prop :=
  Relation.ReflTransGen (Step glob pattern)

/-- The endpoint answers: the iteration is over and all it returned is deleted. -/
def World.Answered (s : World) : Prop := s.complete = true ∧ s.batch = []

structure Sound (glob : Text → Key → Bool) (pattern : Text) (keys₀ : Key → Bool) (s : World) :
    Prop where
  batch : ∀ k ∈ s.batch, glob pattern k = true
  removed : ∀ k ∈ s.removed, glob pattern k = true
  counted : s.deleted = s.removed.length
  /-- What was returned and is not about to be deleted has not lasted. -/
  returned : ∀ k ∈ s.returned, k ∈ s.batch ∨ s.lasting k = false
  complete : s.complete = true → ∀ k, s.lasting k = true → glob pattern k = true → k ∈ s.returned
  /-- A key of the beginning has lasted, or somebody has taken it away. -/
  lasting : ∀ k, keys₀ k = true → s.lasting k = true ∨ k ∈ s.removed ∨ k ∈ s.expired
  keys : ∀ k, s.keys k = true → s.lasting k = true ∨ k ∈ s.written
  present : ∀ k, s.lasting k = true → s.keys k = true

section

variable {pattern : Text} {keys₀ : Key → Bool} {s t : World}

theorem sound_start (keys : Key → Bool) : Sound glob pattern keys (start keys) where
  batch _ h := by cases h
  removed _ h := by cases h
  counted := rfl
  returned _ h := by cases h
  complete h := by cases h
  lasting _ h := Or.inl h
  keys _ h := Or.inl h
  present _ h := h

/-- A key is taken away. -/
theorem update_false {f : Key → Bool} {k j : Key} (h : Function.update f k false j = true) :
    j ≠ k ∧ f j = true := by
  by_cases hj : j = k
  · subst hj
    rw [Function.update_self] at h
    cases h
  · rw [Function.update_of_ne hj] at h
    exact ⟨hj, h⟩

theorem update_false_of_false {f : Key → Bool} {k j : Key} (h : f j = false) :
    Function.update f k false j = false := by
  by_cases hj : j = k
  · rw [hj, Function.update_self]
  · rw [Function.update_of_ne hj, h]

theorem Sound.step (h : Sound glob pattern keys₀ s) (hs : Step glob pattern s t) :
    Sound glob pattern keys₀ t := by
  cases hs with
  | @scan reply zero hempty _ hreply hzero =>
    refine ⟨fun k hk => (hreply k hk).1, h.removed, h.counted, fun k hk => ?_, hzero, h.lasting,
      h.keys, h.present⟩
    rcases List.mem_append.mp hk with hk | hk
    · rcases h.returned k hk with hbatch | hgone
      · rw [hempty] at hbatch
        cases hbatch
      · exact Or.inr hgone
    · exact Or.inl hk
  | @delete k rest hbatch =>
    have hmatch : glob pattern k = true := h.batch k (by rw [hbatch]; exact List.mem_cons_self)
    refine ⟨fun j hj => h.batch j (by rw [hbatch]; exact List.mem_cons_of_mem k hj), ?_,
      congrArg (· + 1) h.counted, fun j hj => ?_, fun hcomplete j hj => ?_, fun j hj => ?_,
      fun j hj => ?_, fun j hj => ?_⟩
    · intro j hj
      rcases List.mem_cons.mp hj with rfl | hj
      · exact hmatch
      · exact h.removed j hj
    · by_cases hjk : j = k
      · exact Or.inr (by rw [hjk]; exact Function.update_self _ _ _)
      · rcases h.returned j hj with hin | hgone
        · rw [hbatch] at hin
          exact Or.inl ((List.mem_cons.mp hin).resolve_left hjk)
        · exact Or.inr (update_false_of_false hgone)
    · exact h.complete hcomplete j (update_false hj).2
    · rcases h.lasting j hj with hlast | hremoved | hexpired
      · by_cases hjk : j = k
        · exact Or.inr (Or.inl (hjk ▸ List.mem_cons_self))
        · exact Or.inl ((Function.update_of_ne hjk _ _).trans hlast)
      · exact Or.inr (Or.inl (List.mem_cons_of_mem k hremoved))
      · exact Or.inr (Or.inr hexpired)
    · obtain ⟨hjk, hj⟩ := update_false hj
      exact (h.keys j hj).imp_left (Function.update_of_ne hjk _ _).trans
    · obtain ⟨hjk, hj⟩ := update_false hj
      exact (Function.update_of_ne hjk _ _).trans (h.present j hj)
  | write k =>
    refine ⟨h.batch, h.removed, h.counted, h.returned, h.complete, h.lasting, fun j hj => ?_,
      fun j hj => ?_⟩
    · by_cases hjk : j = k
      · exact Or.inr (hjk ▸ List.mem_cons_self)
      · exact (h.keys j ((Function.update_of_ne hjk _ _).symm.trans hj)).imp_right
          (List.mem_cons_of_mem k)
    · by_cases hjk : j = k
      · rw [hjk]
        exact Function.update_self _ _ _
      · exact (Function.update_of_ne hjk _ _).trans (h.present j hj)
  | expire k =>
    refine ⟨h.batch, h.removed, h.counted, fun j hj => ?_, fun hcomplete j hj => ?_,
      fun j hj => ?_, fun j hj => ?_, fun j hj => ?_⟩
    · exact (h.returned j hj).imp_right update_false_of_false
    · exact h.complete hcomplete j (update_false hj).2
    · rcases h.lasting j hj with hlast | hremoved | hexpired
      · by_cases hjk : j = k
        · exact Or.inr (Or.inr (hjk ▸ List.mem_cons_self))
        · exact Or.inl ((Function.update_of_ne hjk _ _).trans hlast)
      · exact Or.inr (Or.inl hremoved)
      · exact Or.inr (Or.inr (List.mem_cons_of_mem k hexpired))
    · obtain ⟨hjk, hj⟩ := update_false hj
      exact (h.keys j hj).imp_left (Function.update_of_ne hjk _ _).trans
    · obtain ⟨hjk, hj⟩ := update_false hj
      exact (Function.update_of_ne hjk _ _).trans (h.present j hj)

end

end FlushCache
end AdaptiveGateway
