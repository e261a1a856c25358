/-
The contrasts of a trial.

Compression and removal make four modes.  Two contrasts are about compression, one without
and one with removal; two are about removal; the last is about both at once.  So there are
two ways from the full response to the combined one, and the differences along each add up
to the difference of the whole.

Every contrast pairs its own trials, as a value may be missing in one mode and not in
another.  What a contrast says of a trial is therefore read where its trials have it.
-/
import AdaptiveGateway.Study.Analysis

namespace AdaptiveGateway
namespace Study

open Codec Python

/-! ## What an analysis says -/

/-- The entry at the position that the trial has in `paired_trial_ids`. -/
def Effect.difference (e : Effect) (trial : Str) : Option ℚ :=
  e.pairedTrialDifferences[e.pairedTrialIds.idxOf trial]?

def Effect.key (e : Effect) : Str × Str × Str := (e.condition, e.contrast, e.metric)

/-- The non-null value of a metric in one mode of a trial. -/
def Analysis.Value (a : Analysis) (condition metric trial mode : Str) (x : ℚ) : Prop :=
  ∃ row ∈ a.perTrial, (row.trialId, row.condition, row.mode) = (trial, condition, mode) ∧
    row.metric metric = some x

/-- There is one effect for the contrast, which has the trial once, with the difference `d`. -/
def Analysis.Difference (a : Analysis) (condition metric trial contrast : Str) (d : ℚ) : Prop :=
  ∃ e, (∀ e', e' ∈ a.pairedEffects ∧ e'.key = (condition, contrast, metric) ↔ e' = e) ∧
    e.pairedTrialIds.count trial = 1 ∧ e.difference trial = some d

/-! ## One effect -/

section

variable {arith : Arithmetic} {rows : List TrialRow} {condition metric trial : Str}

theorem mem_sortedSet {name : Str} {names : List Str} : name ∈ sortedSet names ↔ name ∈ names := by
  rw [sortedSet, (sortedBy_perm id _).mem_iff, List.mem_dedup]

theorem nodup_sortedSet (names : List Str) : (sortedSet names).Nodup :=
  (sortedBy_perm id _).nodup_iff.mpr names.nodup_dedup

/-- `by_identity.get((trial, condition, mode), {}).get(metric)` -/
def valueAt (rows : List TrialRow) (condition metric trial mode : Str) : Option ℚ := do
  let row ← (byIdentity rows).get? (trial, condition, mode)
  row.metric metric

/-- `b - a`, where both are there. -/
def differenceAt (arith : Arithmetic) (rows : List TrialRow) (condition metric : Str)
    (contrast : Str × Str × Str) (trial : Str) : Option ℚ := do
  let a ← valueAt rows condition metric trial contrast.2.1
  let b ← valueAt rows condition metric trial contrast.2.2
  return arith.sub b a

def trialsOf (rows : List TrialRow) (condition : Str) : List Str :=
  sortedSet ((rows.filter fun r => decide (r.condition = condition)).map TrialRow.trialId)

/-- The two lists of an effect are the keys and the values of one. -/
theorem exists_pairs (arith : Arithmetic) (rows : List TrialRow) (condition metric : Str)
    (contrast : Str × Str × Str) : ∃ pairs : List (Str × ℚ),
      (effectOf arith rows condition contrast metric).pairedTrialIds = pairs.map Prod.fst ∧
      (effectOf arith rows condition contrast metric).pairedTrialDifferences =
        pairs.map Prod.snd ∧
      pairs = (trialsOf rows condition).filterMap fun trial =>
        (differenceAt arith rows condition metric contrast trial).map fun d => (trial, d) := by
  refine ⟨_, rfl, rfl, ?_⟩
  refine congrFun (congrArg List.filterMap (funext fun trial => ?_)) _
  simp only [differenceAt, valueAt]
  cases (byIdentity rows).get? (trial, condition, contrast.2.1) with
  | none => rfl
  | some row =>
    cases hrow : row.metric metric with
    | none => simp [hrow]
    | some x =>
      cases (byIdentity rows).get? (trial, condition, contrast.2.2) with
      | none => simp [hrow]
      | some row' => cases hrow' : row'.metric metric <;> simp [hrow, hrow']

theorem difference_effectOf (contrast : Str × Str × Str) (hmem : trial ∈ trialsOf rows condition) :
    (effectOf arith rows condition contrast metric).difference trial =
      differenceAt arith rows condition metric contrast trial := by
  obtain ⟨pairs, hids, hdifferences, hpairs⟩ := exists_pairs arith rows condition metric contrast
  rw [Effect.difference, hids, hdifferences, Dict.getElem?_idxOf, hpairs,
    Dict.lookup_filterMap _ hmem]

theorem count_effectOf {contrast : Str × Str × Str} (hmem : trial ∈ trialsOf rows condition)
    (hsome : (differenceAt arith rows condition metric contrast trial).isSome = true) :
    (effectOf arith rows condition contrast metric).pairedTrialIds.count trial = 1 := by
  obtain ⟨pairs, hids, -, hpairs⟩ := exists_pairs arith rows condition metric contrast
  rw [hids, hpairs, Dict.keys_filterMap]
  exact List.count_eq_one_of_mem ((nodup_sortedSet _).filter _) (List.mem_filter.mpr ⟨hmem, hsome⟩)

/-! ## All effects -/

theorem mem_effects {e : Effect} : e ∈ effects arith rows ↔
    ∃ condition ∈ rows.map TrialRow.condition, ∃ contrast ∈ CONTRASTS,
      ∃ metric ∈ EFFECT_METRICS, effectOf arith rows condition contrast metric = e := by
  simp only [effects, List.mem_flatMap, mem_sortedSet, List.mem_map]

/-- The name of a contrast tells which one it is. -/
theorem contrast_ext {contrast contrast' : Str × Str × Str} (h : contrast ∈ CONTRASTS)
    (h' : contrast' ∈ CONTRASTS) (hname : contrast.1 = contrast'.1) : contrast = contrast' := by
  have hall : ∀ c ∈ CONTRASTS, ∀ c' ∈ CONTRASTS, c.1 = c'.1 → c = c' := by decide
  exact hall contrast h contrast' h' hname

theorem effect_unique {contrast : Str × Str × Str}
    (hcondition : condition ∈ rows.map TrialRow.condition) (hcontrast : contrast ∈ CONTRASTS)
    (hmetric : metric ∈ EFFECT_METRICS) (e : Effect) :
    e ∈ effects arith rows ∧ e.key = (condition, contrast.1, metric) ↔
      e = effectOf arith rows condition contrast metric := by
  constructor
  · rintro ⟨hmem, hkey⟩
    obtain ⟨condition', -, contrast', hcontrast', metric', -, rfl⟩ := mem_effects.mp hmem
    obtain ⟨hc, hrest⟩ := Prod.mk.inj hkey
    obtain ⟨hname, hm⟩ := Prod.mk.inj hrest
    obtain rfl : condition' = condition := hc
    obtain rfl : metric' = metric := hm
    rw [contrast_ext hcontrast' hcontrast hname]
  · rintro rfl
    exact ⟨mem_effects.mpr ⟨condition, hcondition, contrast, hcontrast, metric, hmetric, rfl⟩, rfl⟩

/-! ## The rows of the trials -/

/-- No two trials of an analysis are for the same identity. -/
theorem nodup_trialRows (arith : Arithmetic) (measured : List Row) :
    ((trialRows arith measured).map fun r => (r.trialId, r.condition, r.mode)).Nodup := by
  have hkeys := nodup_keys_sortedGroups groupKey measured
  rw [trialRows, List.map_map]
  have hinj : Function.Injective fun key : Str ×ₗ Str ×ₗ Str => (key.1, key.2.1, key.2.2) :=
    fun key key' h => h
  have hmap := hkeys.map hinj
  rwa [List.map_map] at hmap

/-- A measured row is counted in a row of the analysis. -/
theorem mem_trialRows (arith : Arithmetic) {measured : List Row} {row : Row}
    (hrow : row ∈ measured) : ∃ group : List Row, row ∈ group ∧
      (⟨text row "trial_id", text row "condition", text row "mode",
        summarize arith (group.map retained)⟩ : TrialRow) ∈ trialRows arith measured := by
  obtain ⟨group, hmem, hgroup⟩ := exists_mem_sortedGroups groupKey hrow
  exact ⟨group, hmem, List.mem_map.mpr ⟨_, hgroup, rfl⟩⟩

theorem valueAt_eq_some (hnodup : (rows.map fun r => (r.trialId, r.condition, r.mode)).Nodup)
    {mode : Str} {x : ℚ} {row : TrialRow} (hrow : row ∈ rows)
    (hidentity : (row.trialId, row.condition, row.mode) = (trial, condition, mode))
    (hx : row.metric metric = some x) : valueAt rows condition metric trial mode = some x := by
  have hget : (byIdentity rows).get? (trial, condition, mode) = some row := by
    refine (Dict.mem_iff_get?_ofPairs ?_).mp ?_
    · rwa [List.map_map]
    · exact List.mem_map.mpr ⟨row, hrow, Prod.ext hidentity rfl⟩
  rw [valueAt, hget]
  exact hx

end

/-! ## The sums -/

theorem analyze_ok {arith : Arithmetic} {order : SetOrder} {source : Source} {a : Analysis}
    (h : analyze arith order source = .ok a) : ∃ measured, a = analysisOf arith order measured := by
  obtain ⟨rows, -, hrows⟩ := bind_ok.mp h
  obtain ⟨-, hreturn⟩ := seq_ok.mp hrows
  exact ⟨rows.filter isMeasured, (Except.ok.inj hreturn).symm⟩

/-- Where both modes of a contrast have a value, it has their difference. -/
theorem difference_of_values {arith : Arithmetic} {order : SetOrder} {source : Source}
    {a : Analysis} (h : analyze arith order source = .ok a) {condition metric trial : Str}
    (hmetric : metric ∈ EFFECT_METRICS) {contrast : Str × Str × Str}
    (hcontrast : contrast ∈ CONTRASTS) {x y : ℚ}
    (hx : a.Value condition metric trial contrast.2.1 x)
    (hy : a.Value condition metric trial contrast.2.2 y) :
    a.Difference condition metric trial contrast.1 (arith.sub y x) := by
  obtain ⟨measured, rfl⟩ := analyze_ok h
  obtain ⟨row, hrow, hidentity, hvalue⟩ := hx
  obtain ⟨row', hrow', hidentity', hvalue'⟩ := hy
  have hnodup := nodup_trialRows arith measured
  have hdifference : differenceAt arith (trialRows arith measured) condition metric contrast trial =
      some (arith.sub y x) := by
    rw [differenceAt, valueAt_eq_some hnodup hrow hidentity hvalue,
      valueAt_eq_some hnodup hrow' hidentity' hvalue']
    rfl
  obtain ⟨htrial, hrest⟩ := Prod.mk.inj hidentity
  have hcondition : row.condition = condition := (Prod.mk.inj hrest).1
  have hmem : trial ∈ trialsOf (trialRows arith measured) condition :=
    mem_sortedSet.mpr (List.mem_map.mpr
      ⟨row, List.mem_filter.mpr ⟨hrow, decide_eq_true hcondition⟩, htrial⟩)
  refine ⟨effectOf arith (trialRows arith measured) condition contrast metric, ?_, ?_, ?_⟩
  · exact effect_unique (List.mem_map.mpr ⟨row, hrow, hcondition⟩) hcontrast hmetric
  · exact count_effectOf hmem (by rw [hdifference]; rfl)
  · rw [difference_effectOf contrast hmem, hdifference]

/-- In every analysis, and with exact differences, each contrast has a trial once in which both
of its modes have a value, and both ways to the combined response add up in every trial that
has all four. -/
theorem contrasts_add_up {arith : Arithmetic} (hsub : ∀ x y, arith.sub x y = x - y)
    {order : SetOrder} {source : Source} {a : Analysis} (h : analyze arith order source = .ok a)
    (condition trial : Str) {metric : Str} (hmetric : metric ∈ EFFECT_METRICS) :
    (∀ contrast ∈ CONTRASTS, ∀ x y, a.Value condition metric trial contrast.2.1 x →
      a.Value condition metric trial contrast.2.2 y →
        a.Difference condition metric trial contrast.1 (y - x)) ∧
    ((∀ mode ∈ (["full", "compression", "removal", "combined"] : List Str),
      ∃ x, a.Value condition metric trial mode x) →
      ∃ atFull afterRemoval withoutCompression withCompression whole,
        a.Difference condition metric trial "compression_at_full" atFull ∧
        a.Difference condition metric trial "compression_after_removal" afterRemoval ∧
        a.Difference condition metric trial "removal_without_compression" withoutCompression ∧
        a.Difference condition metric trial "removal_with_compression" withCompression ∧
        a.Difference condition metric trial "combined_vs_full" whole ∧
        whole = atFull + withCompression ∧ whole = withoutCompression + afterRemoval) := by
  have hpaired : ∀ contrast ∈ CONTRASTS, ∀ x y, a.Value condition metric trial contrast.2.1 x →
      a.Value condition metric trial contrast.2.2 y →
        a.Difference condition metric trial contrast.1 (y - x) :=
    fun contrast hcontrast x y hx hy => by
      rw [← hsub]
      exact difference_of_values h hmetric hcontrast hx hy
  refine ⟨hpaired, fun hvalues => ?_⟩
  obtain ⟨full, hfull⟩ := hvalues "full" (by simp)
  obtain ⟨compression, hcompression⟩ := hvalues "compression" (by simp)
  obtain ⟨removal, hremoval⟩ := hvalues "removal" (by simp)
  obtain ⟨combined, hcombined⟩ := hvalues "combined" (by simp)
  refine ⟨compression - full, combined - removal, removal - full, combined - compression,
    combined - full, ?_, ?_, ?_, ?_, ?_, by ring, by ring⟩
  · exact hpaired ("compression_at_full", "full", "compression") (by decide) _ _ hfull hcompression
  · exact hpaired ("compression_after_removal", "removal", "combined") (by decide) _ _ hremoval
      hcombined
  · exact hpaired ("removal_without_compression", "full", "removal") (by decide) _ _ hfull hremoval
  · exact hpaired ("removal_with_compression", "compression", "combined") (by decide) _ _
      hcompression hcombined
  · exact hpaired ("combined_vs_full", "full", "combined") (by decide) _ _ hfull hcombined

/-! ## The setting of the tests -/

/-- The row of the tests in this mode, where the response is one without content or does not
come. -/
def mockMode (mode : Str) (success : Bool) : Row := mockRow.map fun e =>
  if e.1 = ("mode" : Str) ∨ e.1 = ("system" : Str) then (e.1, .str mode)
  else if e.1 = ("success" : Str) ∨ e.1 = ("transport_complete" : Str) then (e.1, .bool success)
  else if e.1 = ("status" : Str) then (e.1, .int (if success then 204 else 0)) else e

def mockModes : List Row :=
  [mockMode "full" true, mockMode "compression" false, mockMode "removal" false,
    mockMode "combined" true]

def mockOrder : SetOrder := ⟨id, List.Perm.refl⟩

theorem analyze_mockModes : analyze mockArithmetic mockOrder (.list (mockModes.map Value.dict)) =
    .ok (analysisOf mockArithmetic mockOrder mockModes) := by
  have hvalidated : validatedRows (mockModes.map Value.dict) = .ok mockModes := by decide +kernel
  have hmeasured : mockModes.filter isMeasured = mockModes := by decide +kernel
  have hne : mockModes.filter isMeasured ≠ [] := by rw [hmeasured]; exact List.cons_ne_nil _ _
  have hanalysis : analyze mockArithmetic mockOrder (.list (mockModes.map Value.dict)) = _ :=
    analyze_of_validated hvalidated hne
  rwa [hmeasured] at hanalysis

theorem contrasts_add_up_mock : ∃ atFull withoutCompression,
    (analysisOf mockArithmetic mockOrder mockModes).Difference "GOOD" "success_rate" "trial_001"
      "compression_at_full" atFull ∧
    (analysisOf mockArithmetic mockOrder mockModes).Difference "GOOD" "success_rate" "trial_001"
      "removal_without_compression" withoutCompression := by
  have hvalue : ∀ row ∈ mockModes, ∃ x, (analysisOf mockArithmetic mockOrder mockModes).Value "GOOD"
      "success_rate" "trial_001" (text row "mode") x := fun row hrow => by
    have hfields : ∀ row ∈ mockModes, text row "trial_id" = ("trial_001" : Str) ∧
        text row "condition" = ("GOOD" : Str) := by decide +kernel
    obtain ⟨group, -, hmem⟩ := mem_trialRows mockArithmetic hrow
    exact ⟨_, _, hmem, by rw [(hfields row hrow).1, (hfields row hrow).2], rfl⟩
  have hvalues : ∀ mode ∈ (["full", "compression", "removal", "combined"] : List Str),
      ∃ x, (analysisOf mockArithmetic mockOrder mockModes).Value "GOOD" "success_rate" "trial_001"
        mode x := by
    have hmodes : (["full", "compression", "removal", "combined"] : List Str) =
        mockModes.map fun row => text row "mode" := by decide +kernel
    rw [hmodes]
    exact List.forall_mem_map.mpr hvalue
  obtain ⟨atFull, -, withoutCompression, -, -, hfull, -, hwithout, -⟩ :=
    (contrasts_add_up (fun _ _ => rfl) analyze_mockModes "GOOD" "trial_001" (by decide)).2 hvalues
  exact ⟨atFull, withoutCompression, hfull, hwithout⟩

end Study
end AdaptiveGateway
