/-
The order of the modes in a schedule.

A drift of the network over the hours of a study must not count for or against a mode, so
each mode is measured in each position equally often.  `Counterbalanced` says this of the
rows of a schedule, and does not mention how they are rotated.
-/
import AdaptiveGateway.Control.LatinSquare
import AdaptiveGateway.Study.Collection

namespace AdaptiveGateway
namespace Study

open Codec Python Control

/-- The rows of one trial, as they follow each other in a schedule. -/
def blocksOf (blocks : List PlannedBlock) (id : Text) : List PlannedBlock :=
  blocks.filter fun b => b.trialId == id

/-- `ids` are the trials of a schedule.  In a `window`, which is any `modes.length` trials in
a row, there is just one row for each mode and position. -/
structure Counterbalanced (modes ids : List Text) (blocks : List PlannedBlock) : Prop where
  distinct : ids.Nodup
  inOrder : blocks = ids.flatMap (blocksOf blocks)
  positions : ∀ id ∈ ids,
    (blocksOf blocks id).map PlannedBlock.position = List.range' 1 modes.length
  each : ∀ id ∈ ids, ((blocksOf blocks id).map PlannedBlock.mode).Perm modes
  window : ∀ first, first + modes.length ≤ ids.length →
    ∀ mode ∈ modes, ∀ position, 1 ≤ position → position ≤ modes.length →
      ∃! b, b ∈ blocks ∧ b.trialId ∈ (ids.drop first).take modes.length ∧
        b.position = position ∧ b.mode = mode

/-- `f"trial_{trial + 1:03d}"` -/
def trialIds (trials : Nat) : List Text :=
  (List.range trials).map fun trial => trialId (trial + 1)

/-- The rows that one pass of the outer loop adds. -/
def trialBlocks (initial : List Text) (trial : Nat) : List PlannedBlock :=
  (rotated initial trial).zipIdx.map fun e => ⟨trialId (trial + 1), e.2 + 1, e.1⟩

/-! ## The trials -/

theorem nodup_trialIds (trials : Nat) : (trialIds trials).Nodup :=
  List.nodup_range.map fun _ _ h => Nat.succ_injective (trialId_injective h)

theorem mem_trialIds_window {trials first k : Nat} (h : first + k ≤ trials) {id : Text} :
    id ∈ ((trialIds trials).drop first).take k ↔
      ∃ t, first ≤ t ∧ t < first + k ∧ trialId (t + 1) = id := by
  have hwindow : ((trialIds trials).drop first).take k =
      (List.range' first k).map fun trial => trialId (trial + 1) := by
    rw [trialIds, ← List.map_drop, ← List.map_take, List.range_eq_range', List.drop_range',
      List.take_range'_of_length_ge (by omega), Nat.zero_add, Nat.mul_one]
  rw [hwindow, List.mem_map]
  simp only [List.mem_range'_1, and_assoc]

section

variable {initial : List Text}

theorem rotated_eq_rotate (initial : List Text) (trial : Nat) :
    rotated initial trial = initial.rotate trial :=
  (List.rotate_eq_drop_append_take_mod).symm

theorem positions_trialBlocks (trial : Nat) :
    (trialBlocks initial trial).map PlannedBlock.position = List.range' 1 initial.length := by
  have hlength : (rotated initial trial).length = initial.length :=
    (rotated_perm initial trial).length_eq
  rw [trialBlocks, List.map_map, ← hlength]
  calc (rotated initial trial).zipIdx.map (fun e => e.2 + 1)
      = ((rotated initial trial).zipIdx.map Prod.snd).map (· + 1) := by rw [List.map_map]; rfl
    _ = (List.range' 0 (rotated initial trial).length).map (· + 1) := by rw [List.zipIdx_map_snd]
    _ = List.range' 1 (rotated initial trial).length := by
        simp only [Nat.add_comm _ 1, List.map_add_range', Nat.add_zero]

theorem modes_trialBlocks (trial : Nat) :
    (trialBlocks initial trial).map PlannedBlock.mode = rotated initial trial := by
  rw [trialBlocks, List.map_map]
  exact List.zipIdx_map_fst 0 _

theorem trialId_of_mem_trialBlocks {trial : Nat} {b : PlannedBlock}
    (hb : b ∈ trialBlocks initial trial) : b.trialId = trialId (trial + 1) := by
  obtain ⟨e, -, rfl⟩ := List.mem_map.mp hb
  rfl

/-- A row has the mode that the turn of its trial puts in its position. -/
theorem mem_trialBlocks {trial : Nat} {b : PlannedBlock} : b ∈ trialBlocks initial trial ↔
    b.trialId = trialId (trial + 1) ∧
      ∃ p, b.position = p + 1 ∧ (initial.rotate trial)[p]? = some b.mode := by
  rw [trialBlocks, rotated_eq_rotate, List.mem_map]
  constructor
  · rintro ⟨⟨mode, p⟩, hmem, rfl⟩
    exact ⟨rfl, p, rfl, List.mem_zipIdx_iff_getElem?.mp hmem⟩
  · rintro ⟨hid, p, hposition, hmode⟩
    refine ⟨(b.mode, p), List.mem_zipIdx_iff_getElem?.mpr hmode, ?_⟩
    obtain ⟨id, position, mode⟩ := b
    obtain rfl : id = trialId (trial + 1) := hid
    obtain rfl : position = p + 1 := hposition
    rfl

/-- No other pass adds rows under the name of a trial. -/
theorem blocksOf_trials {trials trial : Nat} (htrial : trial < trials) :
    blocksOf ((List.range trials).flatMap (trialBlocks initial)) (trialId (trial + 1)) =
      trialBlocks initial trial := by
  have hpass : ∀ t, (trialBlocks initial t).filter (fun b => b.trialId == trialId (trial + 1)) =
      if t = trial then trialBlocks initial trial else [] := fun t => by
    split
    next h =>
      rw [h, List.filter_eq_self]
      exact fun b hb => beq_iff_eq.mpr (trialId_of_mem_trialBlocks hb)
    next h =>
      refine List.filter_eq_nil_iff.mpr fun b hb hid => h ?_
      rw [beq_iff_eq, trialId_of_mem_trialBlocks hb] at hid
      exact Nat.succ_injective (trialId_injective hid)
  rw [blocksOf, List.filter_flatMap]
  simp only [hpass]
  induction trials with
  | zero => exact absurd htrial (Nat.not_lt_zero _)
  | succ n ih =>
    rw [List.range_succ, List.flatMap_append, List.flatMap_singleton]
    rcases Nat.lt_succ_iff_lt_or_eq.mp htrial with hlt | rfl
    · rw [ih hlt, if_neg (Nat.ne_of_gt hlt), List.append_nil]
    · rw [if_pos rfl, List.flatMap_eq_nil_iff.mpr, List.nil_append]
      intro t ht
      exact if_neg (Nat.ne_of_lt (List.mem_range.mp ht))

end

/-! ## The schedule -/

section

variable {rng : Shuffle} {trials : Nat} {modes : List Text} {seed : ℤ}

/-- `initial` -/
theorem initial_perm (rng : Shuffle) (modes : List Text) (seed : ℤ) :
    (rng.shuffle seed (sortedBy id modes)).Perm modes :=
  (rng.perm _ _).trans (sortedBy_perm id modes)

/-- In a window a mode comes to a position in one trial only, as the rotations of a list are
a Latin square. -/
theorem window_schedule (hnodup : modes.Nodup) {first : Nat}
    (hfirst : first + modes.length ≤ trials) {mode : Text} (hmode : mode ∈ modes) {position : Nat}
    (hone : 1 ≤ position) (hle : position ≤ modes.length) :
    ∃! b, b ∈ schedule rng trials modes seed ∧
      b.trialId ∈ ((trialIds trials).drop first).take modes.length ∧
        b.position = position ∧ b.mode = mode := by
  have hperm := initial_perm rng modes seed
  obtain ⟨p, rfl⟩ := Nat.exists_eq_add_of_le' hone
  obtain ⟨t, ⟨hge, hlt, ht⟩, hunique⟩ := LatinSquare.existsUnique_rotate
    (hperm.nodup_iff.mpr hnodup) (hperm.mem_iff.mpr hmode)
    (Nat.lt_of_succ_le (hle.trans hperm.length_eq.ge)) first
  rw [hperm.length_eq] at hlt
  refine ⟨⟨trialId (t + 1), p + 1, mode⟩, ⟨?_, ?_, rfl, rfl⟩, ?_⟩
  · refine List.mem_flatMap.mpr ⟨t, List.mem_range.mpr (hlt.trans_le hfirst), ?_⟩
    exact mem_trialBlocks.mpr ⟨rfl, p, rfl, ht⟩
  · exact (mem_trialIds_window hfirst).mpr ⟨t, hge, hlt, rfl⟩
  · rintro ⟨id, position, mode⟩ ⟨hmem, hid, rfl, rfl⟩
    obtain ⟨t', -, hb⟩ := List.mem_flatMap.mp hmem
    obtain ⟨hname, p', hposition, hplace⟩ := mem_trialBlocks.mp hb
    obtain ⟨t'', hge', hlt', hid⟩ := (mem_trialIds_window hfirst).mp hid
    obtain rfl : t'' = t' := Nat.succ_injective (trialId_injective (hid.trans hname))
    obtain rfl : p = p' := Nat.succ_injective hposition
    rw [← hperm.length_eq] at hlt'
    rw [hunique t'' ⟨hge', hlt', hplace⟩] at hid
    rw [hid]

/-- Whatever the seed makes of their order, the modes of a schedule are counterbalanced.  (The
source divides by their number, so that there must be one.) -/
theorem schedule_counterbalanced (rng : Shuffle) (trials : Nat) {modes : List Text}
    (hnodup : modes.Nodup) (seed : ℤ) :
    Counterbalanced modes (trialIds trials) (schedule rng trials modes seed) := by
  have hperm := initial_perm rng modes seed
  have hblocks : ∀ t < trials, blocksOf (schedule rng trials modes seed) (trialId (t + 1)) =
      trialBlocks (rng.shuffle seed (sortedBy id modes)) t := fun t ht => blocksOf_trials ht
  have hids : ∀ id ∈ trialIds trials, ∃ t < trials, trialId (t + 1) = id := fun id hid => by
    obtain ⟨t, ht, rfl⟩ := List.mem_map.mp hid
    exact ⟨t, List.mem_range.mp ht, rfl⟩
  constructor
  case distinct => exact nodup_trialIds trials
  case inOrder =>
    rw [trialIds, List.flatMap_map]
    exact (List.flatMap_congr fun t ht => hblocks t (List.mem_range.mp ht)).symm
  case positions =>
    intro id hid
    obtain ⟨t, ht, rfl⟩ := hids id hid
    rw [hblocks t ht, positions_trialBlocks, hperm.length_eq]
  case each =>
    intro id hid
    obtain ⟨t, ht, rfl⟩ := hids id hid
    rw [hblocks t ht, modes_trialBlocks]
    exact (rotated_perm _ t).trans hperm
  case window =>
    intro first hfirst mode hmode position hone hle
    rw [trialIds, List.length_map, List.length_range] at hfirst
    exact window_schedule hnodup hfirst hmode hone hle

end

theorem schedule_counterbalanced_mock : Counterbalanced FIXED_MODES (trialIds 5)
    (schedule mockShuffle 5 FIXED_MODES 20261018) :=
  schedule_counterbalanced mockShuffle 5 (by decide) 20261018

end Study
end AdaptiveGateway
