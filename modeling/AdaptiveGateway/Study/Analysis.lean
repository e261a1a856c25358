/-
The analysis of the observations of a study.

Sums, means and variances are exact, and so is the order of the numbers.  What a quotient,
a difference or a root is rounded to is left open: an `Arithmetic` says it, as a function
of the numbers.  Numbers that Python finds equal are the same number here, be they
integers, floats or booleans.

The metrics of a trial are taken out of a set, in an order that nothing fixes.
-/
import AdaptiveGateway.Study.Load
import AdaptiveGateway.Python.Grouping
import Mathlib.Data.Prod.Lex

namespace AdaptiveGateway
namespace Study

open Codec Python Numeric

structure Arithmetic where
  div : ℚ → ℚ → ℚ
  sub : ℚ → ℚ → ℚ
  sqrt : ℚ → ℚ

/-- The order in which a set is iterated. -/
structure SetOrder where
  list : List Str → List Str
  perm : ∀ names, (list names).Perm names

/-! ## Fields -/

def text (row : Row) (key : Str) : Str :=
  match item row key with
  | .str s => s
  | _ => []

def flag (row : Row) (key : Str) : Bool := (item row key).truthy

/-- The number of a field that has one. -/
def number (row : Row) (key : Str) : ℚ := (item row key).rat.getD 0

def SUMMARY_FIELDS : List Str :=
  ["success", "valid_response", "latency_ms", "timeout", "encoded_bytes", "decoded_bytes",
    "item_retention", "field_coverage", "reduced", "required_values_preserved"]

/-- `{key: row[key] for key in summary_fields}` -/
def retained (row : Row) : Row := SUMMARY_FIELDS.map fun key => (key, item row key)

def isMeasured (row : Row) : Bool := (item row "phase").eq (.str "measured")

/-! ## Statistics -/

/-- `max(0, math.ceil(n * percent / 100) - 1)`, the quotient being a float. -/
def rank (n percent : Nat) : Nat := (⌈nearest ((n * percent : Nat) / 100)⌉ - 1).toNat

def percentile (values : List ℚ) (percent : Nat) : Option ℚ :=
  (sortedBy id values)[rank values.length percent]?

def variance (values : List ℚ) : ℚ :=
  let mean := values.sum / values.length
  (values.map fun x => (x - mean) ^ 2).sum / (values.length - 1)

section

variable (arith : Arithmetic)

def mean (values : List ℚ) : Option ℚ :=
  if values = [] then none else some (arith.div values.sum values.length)

/-- `statistics.stdev(values) if len(values) > 1 else None` -/
def stddev (values : List ℚ) : Option ℚ :=
  if 1 < values.length then some (arith.sqrt (variance values)) else none

def rate (count : ℚ) (rows : List Row) : Option ℚ := some (arith.div count rows.length)

def summarize (rows : List Row) : List (Str × Option ℚ) :=
  let valid := rows.filter fun r => flag r "valid_response"
  let successes := rows.filter fun r => flag r "success"
  let latencies := rows.map fun r => number r "latency_ms"
  let successLatencies := successes.map fun r => number r "latency_ms"
  let meanOf (rows : List Row) (key : Str) := mean arith (rows.map fun r => number r key)
  [("requests", some rows.length),
    ("success_rate", rate arith (rows.map fun r => number r "success").sum rows),
    ("error_rate", rate arith (rows.countP fun r => !flag r "success") rows),
    ("timeout_rate", rate arith (rows.map fun r => number r "timeout").sum rows),
    ("valid_response_rate", rate arith valid.length rows),
    ("invalid_2xx_responses",
      some (rows.countP fun r => flag r "success" && !flag r "valid_response")),
    ("p50_latency_ms_all", percentile latencies 50),
    ("p95_latency_ms_all", percentile latencies 95),
    ("p50_latency_ms_success", percentile successLatencies 50),
    ("p95_latency_ms_success", percentile successLatencies 95),
    ("mean_encoded_bytes_all", meanOf rows "encoded_bytes"),
    ("valid_body_count", some valid.length),
    ("mean_encoded_bytes_valid", meanOf valid "encoded_bytes"),
    ("mean_decoded_bytes_valid", meanOf valid "decoded_bytes"),
    ("mean_item_retention_valid", meanOf valid "item_retention"),
    ("mean_field_coverage_valid", meanOf valid "field_coverage"),
    ("reduced_rate_valid", meanOf valid "reduced"),
    ("required_values_preserved_rate_valid", meanOf valid "required_values_preserved")]

/-! ## Trials -/

structure TrialRow where
  trialId : Str
  condition : Str
  mode : Str
  metrics : List (Str × Option ℚ)
deriving DecidableEq

/-- `row[metric]`, or `row.get(metric)` -/
def TrialRow.metric (row : TrialRow) (metric : Str) : Option ℚ :=
  (Dict.lookup metric row.metrics).join

def groupKey (row : Row) : Str ×ₗ Str ×ₗ Str :=
  toLex (text row "trial_id", toLex (text row "condition", text row "mode"))

/-- `trial_rows`, of the measured rows. -/
def trialRows (rows : List Row) : List TrialRow :=
  (sortedGroups groupKey rows).map fun e =>
    ⟨e.1.1, e.1.2.1, e.1.2.2, summarize arith (e.2.map retained)⟩

/-! ## Aggregates -/

structure Aggregate where
  condition : Str
  mode : Str
  metric : Str
  mean : Option ℚ
  sampleStddev : Option ℚ
  min : Option ℚ
  max : Option ℚ
  contributingTrials : Nat
  plannedTrials : Nat
deriving DecidableEq

def pairKey (row : TrialRow) : Str ×ₗ Str := toLex (row.condition, row.mode)

def Aggregate.key (a : Aggregate) : Str ×ₗ Str ×ₗ Str :=
  toLex (a.condition, toLex (a.mode, a.metric))

def aggregateOf (key : Str ×ₗ Str) (trials : List TrialRow) (metric : Str) : Aggregate :=
  let values := trials.filterMap fun t => t.metric metric
  { condition := key.1
    mode := key.2
    metric := metric
    mean := mean arith values
    sampleStddev := stddev arith values
    min := values.min?
    max := values.max?
    contributingTrials := values.length
    plannedTrials := trials.length }

/-- `trials[0].keys() - {"trial_id", "condition", "mode"}` -/
def metricNames (trials : List TrialRow) : List Str :=
  ((trials.head?.map fun t => t.metrics.map Prod.fst).getD []).filter fun name =>
    decide (name ∉ (["trial_id", "condition", "mode"] : List Str))

def aggregates (order : SetOrder) (trials : List TrialRow) : List Aggregate :=
  sortedBy Aggregate.key <| (sortedGroups pairKey trials).flatMap fun e =>
    (order.list (metricNames e.2)).map (aggregateOf arith e.1 e.2)

/-! ## Paired contrasts -/

structure Effect where
  condition : Str
  contrast : Str
  metric : Str
  definition : Text
  pairedTrialIds : List Str
  pairedTrialDifferences : List ℚ
  meanDifference : Option ℚ
  sampleStddev : Option ℚ
  min : Option ℚ
  max : Option ℚ
  pairedTrials : Nat
deriving DecidableEq

/-- The name of a contrast, the mode it starts from and the mode it is about. -/
def CONTRASTS : List (Str × Str × Str) :=
  [("compression_at_full", "full", "compression"),
    ("compression_after_removal", "removal", "combined"),
    ("removal_without_compression", "full", "removal"),
    ("removal_with_compression", "compression", "combined"),
    ("combined_vs_full", "full", "combined")]

def EFFECT_METRICS : List Str :=
  ["p50_latency_ms_all", "p95_latency_ms_all", "success_rate", "mean_encoded_bytes_valid",
    "mean_decoded_bytes_valid", "mean_field_coverage_valid", "mean_item_retention_valid"]

def byIdentity (trials : List TrialRow) : Dict (Str × Str × Str) TrialRow :=
  Dict.ofPairs (trials.map fun r => ((r.trialId, r.condition, r.mode), r))

/-- `sorted({...})` -/
def sortedSet (names : List Str) : List Str := sortedBy id names.dedup

def effectOf (rows : List TrialRow) (condition : Str) (contrast : Str × Str × Str)
    (metric : Str) : Effect :=
  let trials := sortedSet ((rows.filter fun r => decide (r.condition = condition)).map
    TrialRow.trialId)
  let value (trial mode : Str) : Option ℚ := do
    let row ← (byIdentity rows).get? (trial, condition, mode)
    row.metric metric
  let pairs := trials.filterMap fun trial => do
    let a ← value trial contrast.2.1
    let b ← value trial contrast.2.2
    return (trial, arith.sub b a)
  let differences := pairs.map Prod.snd
  { condition := condition
    contrast := contrast.1
    metric := metric
    definition := "treatment minus reference; raw units".toList
    pairedTrialIds := pairs.map Prod.fst
    pairedTrialDifferences := differences
    meanDifference := mean arith differences
    sampleStddev := stddev arith differences
    min := differences.min?
    max := differences.max?
    pairedTrials := differences.length }

def effects (rows : List TrialRow) : List Effect :=
  (sortedSet (rows.map TrialRow.condition)).flatMap fun condition =>
    CONTRASTS.flatMap fun contrast => EFFECT_METRICS.map (effectOf arith rows condition contrast)

/-! ## The analysis -/

structure Analysis where
  schemaVersion : Nat
  perTrial : List TrialRow
  aggregate : List Aggregate
  pairedEffects : List Effect
  inference : Text
deriving DecidableEq

/-- What can be given to a `for` loop: a list, or an iterator that is used up by it. -/
inductive Source where
  | list (rows : List Value)
  | iterator (rows : List Value)

/-- The rows that a loop over the source sees, and what the source has for the next one. -/
def Source.traverse : Source → List Value × Source
  | .list rows => (rows, .list rows)
  | .iterator rows => (rows, .iterator [])

/-- What is returned for these measured rows. -/
def analysisOf (order : SetOrder) (measured : List Row) : Analysis :=
  let trials := trialRows arith measured
  { schemaVersion := 2
    perTrial := trials
    aggregate := aggregates arith order trials
    pairedEffects := effects arith trials
    inference := ("Descriptive only; trial spread is not a confidence interval. " ++
      "No significance test.").toList }

def analyze (order : SetOrder) (source : Source) : Except Exc Analysis := do
  let rows ← validatedRows source.traverse.1
  let measured := rows.filter isMeasured
  refuse measured.isEmpty "No measured observations"
  return analysisOf arith order measured

end

/-! ## The numbers that are read -/

theorem rat_of_isNumber {v : Value} (hnumber : v.isNumber = true) (hfinite : nonfinite v = false) :
    v.rat.isSome = true := by
  cases v with
  | float x =>
    cases x with
    | fin => rfl
    | _ => cases hfinite
  | bool | int | negZero => rfl
  | _ => cases hnumber

theorem rat_of_isBool {v : Value} (h : v.isBool = true) : v.rat.isSome = true := by
  cases v with
  | bool => rfl
  | _ => cases h

theorem checkItem_ok {key : Str} {v : Value} (h : checkItem (key, v) = .ok ()) :
    nonfinite v = false ∧
      (key ∈ (["latency_ms", "encoded_bytes", "decoded_bytes"] : List Str) →
        ¬(v = .null ∧ key = ("decoded_bytes" : Str)) → v.isNumber = true) := by
  rw [checkItem, seq_ok, refuse_ok] at h
  refine ⟨h.1, fun hkey hnull => ?_⟩
  have hrest := h.2
  rw [if_pos hkey, if_neg hnull, refuse_ok] at hrest
  by_contra hnumber
  simp [hnumber] at hrest

section

variable {row : Row}

theorem Passes.contents (h : Passes row) : row.forM checkItem = .ok () ∧
    OUTCOMES.forM (checkOutcome row) = .ok () ∧ CONTENTS.forM (checkContent row) = .ok () ∧
    checkValid row = .ok () ∧ COVERAGE.forM (checkCoverage row) = .ok () := by
  have h' := h.2
  simp only [checkContents, seq_ok] at h'
  exact ⟨h'.1, h'.2.1, h'.2.2.2.1, h'.2.2.2.2.2.2.1, h'.2.2.2.2.2.2.2⟩

theorem Passes.item (h : Passes row) {key : Str} (hkey : key ∈ REQUIRED) :
    checkItem (key, Study.item row key) = .ok () := by
  obtain ⟨hversion, -⟩ := seq_ok.mp h.1
  rw [checkVersion, refuse_ok, Bool.or_eq_false_iff, List.any_eq_false] at hversion
  have hthere := hversion.1 key hkey
  rw [Study.item]
  cases hlookup : Dict.lookup key row with
  | none =>
    rw [hlookup] at hthere
    exact absurd rfl hthere
  | some v => exact forM_ok.mp h.contents.1 (key, v) (Dict.mem_of_lookup hlookup)

theorem Passes.outcome (h : Passes row) {key : Str} (hkey : key ∈ OUTCOMES) :
    (Study.item row key).isBool = true := by
  have hcheck := forM_ok.mp h.contents.2.1 key hkey
  rwa [checkOutcome, refuse_ok, Bool.not_eq_false'] at hcheck

/-- The measurements of a valid response are there. -/
theorem Passes.valid (h : Passes row) (hvalid : flag row "valid_response" = true) :
    Study.item row "decoded_bytes" ≠ .null ∧ ∀ key ∈ MEASURED, Study.item row key ≠ .null := by
  have hcheck := h.contents.2.2.2.1
  rw [flag] at hvalid
  rw [checkValid, refuse_ok, hvalid, Bool.true_and] at hcheck
  simp only [Bool.or_eq_false_iff, decide_eq_false_iff_not, List.any_eq_false] at hcheck
  exact ⟨hcheck.1.1.2, fun key hkey => of_decide_eq_false (by simpa using hcheck.1.2 key hkey)⟩

/-- A field that is checked as a coverage, and is there. -/
theorem Passes.coverage (h : Passes row) {key : Str} (hkey : key ∈ COVERAGE)
    (hrequired : key ∈ REQUIRED) (hne : Study.item row key ≠ .null) :
    (Study.item row key).rat.isSome = true := by
  have hcheck := forM_ok.mp h.contents.2.2.2.2 key hkey
  rw [checkCoverage, refuse_ok] at hcheck
  simp only [decide_eq_true hne, Bool.true_and, Bool.or_eq_false_iff, Bool.not_eq_false'] at hcheck
  exact rat_of_isNumber hcheck.1.1.1 (checkItem_ok (h.item hrequired)).1

theorem Passes.content (h : Passes row) {key : Str} (hkey : key ∈ CONTENTS)
    (hne : Study.item row key ≠ .null) : (Study.item row key).rat.isSome = true := by
  have hcheck := forM_ok.mp h.contents.2.2.1 key hkey
  rw [checkContent, refuse_ok, decide_eq_true hne, Bool.true_and, Bool.not_eq_false'] at hcheck
  exact rat_of_isBool hcheck

/-- What `summarize` takes for a number is one: the fields that it reads in every row, and
those that it reads in the valid responses. -/
theorem Passes.rat (h : Passes row) {key : Str}
    (hkey : key ∈ (["success", "timeout", "latency_ms", "encoded_bytes"] : List Str) ∨
      flag row "valid_response" = true ∧ key ∈ ("decoded_bytes" : Str) :: MEASURED) :
    (Study.item row key).rat = some (number row key) := by
  suffices hsome : (Study.item row key).rat.isSome = true by
    obtain ⟨q, hq⟩ := Option.isSome_iff_exists.mp hsome
    rw [number, hq, Option.getD_some]
  have hmeasurement : ∀ key ∈ (["latency_ms", "encoded_bytes", "decoded_bytes"] : List Str),
      key ∈ REQUIRED → ¬(Study.item row key = .null ∧ key = ("decoded_bytes" : Str)) →
      (Study.item row key).rat.isSome = true := by
    intro key hnumeric hrequired hnull
    obtain ⟨hfinite, hnumber⟩ := checkItem_ok (h.item hrequired)
    exact rat_of_isNumber (hnumber hnumeric hnull) hfinite
  rcases hkey with hkey | ⟨hvalid, hkey⟩
  · simp only [List.mem_cons, List.not_mem_nil, or_false] at hkey
    rcases hkey with rfl | rfl | rfl | rfl
    · exact rat_of_isBool (h.outcome (by decide))
    · exact rat_of_isBool (h.outcome (by decide))
    · exact hmeasurement _ (by decide) (by decide) fun hnull => absurd hnull.2 (by decide)
    · exact hmeasurement _ (by decide) (by decide) fun hnull => absurd hnull.2 (by decide)
  · obtain ⟨hdecoded, hmeasured⟩ := h.valid hvalid
    rcases List.mem_cons.mp hkey with rfl | hkey
    · exact hmeasurement _ (by decide) (by decide) fun hnull => hdecoded hnull.1
    · have hne := hmeasured key hkey
      simp only [MEASURED, List.mem_cons, List.not_mem_nil, or_false] at hkey
      rcases hkey with rfl | rfl | rfl | rfl
      · exact h.coverage (by decide) (by decide) hne
      · exact h.coverage (by decide) (by decide) hne
      · exact h.content (by decide) hne
      · exact h.content (by decide) hne

end

/-! ## The order of the rows -/

theorem percentile_congr {values values' : List ℚ} (h : values.Perm values') (percent : Nat) :
    percentile values percent = percentile values' percent := by
  rw [percentile, percentile, sortedBy_id_congr h, h.length_eq]

section

variable {arith : Arithmetic}

theorem mean_congr {values values' : List ℚ} (h : values.Perm values') :
    mean arith values = mean arith values' := by
  have hnil : values = [] ↔ values' = [] := by
    rw [← List.length_eq_zero_iff, h.length_eq, List.length_eq_zero_iff]
  simp only [mean, hnil, h.sum_eq, h.length_eq]

theorem rate_congr {rows rows' : List Row} (h : rows.Perm rows') {count count' : ℚ}
    (hcount : count = count') : rate arith count rows = rate arith count' rows' := by
  rw [rate, rate, h.length_eq, hcount]

/-- No metric depends on the order of the rows. -/
theorem summarize_congr {rows rows' : List Row} (h : rows.Perm rows') :
    summarize arith rows = summarize arith rows' := by
  have hvalid := h.filter fun r => flag r "valid_response"
  have hsuccess := h.filter fun r => flag r "success"
  have htotal : ∀ key : Str, (rows.map fun r => number r key).sum =
      (rows'.map fun r => number r key).sum := fun key => (h.map _).sum_eq
  have hmean : ∀ {g g' : List Row}, g.Perm g' → ∀ key : Str,
      mean arith (g.map fun r => number r key) = mean arith (g'.map fun r => number r key) :=
    fun hg key => mean_congr (hg.map _)
  have hpercentile : ∀ {g g' : List Row}, g.Perm g' → ∀ percent : Nat,
      percentile (g.map fun r => number r "latency_ms") percent =
        percentile (g'.map fun r => number r "latency_ms") percent :=
    fun hg percent => percentile_congr (hg.map _) percent
  simp only [summarize, h.length_eq, hvalid.length_eq, rate_congr h rfl, htotal, h.countP_eq,
    hmean h, hmean hvalid, hpercentile h, hpercentile hsuccess]

theorem trialRows_congr {rows rows' : List Row} (h : rows.Perm rows') :
    trialRows arith rows = trialRows arith rows' :=
  sortedGroups_congr h fun key {_ _} hg =>
    congrArg (TrialRow.mk key.1 key.2.1 key.2.2) (summarize_congr (hg.map retained))

/-- The aggregates are put in order, whatever the order of the metrics is. -/
theorem aggregates_congr (order order' : SetOrder) (trials : List TrialRow) :
    aggregates arith order trials = aggregates arith order' trials := by
  refine sortedBy_congr (List.Perm.flatMap_left _ fun e _ => ?_) fun a ha b hb hkey => ?_
  · exact ((order.perm _).trans (order'.perm _).symm).map _
  · obtain ⟨e, he, ha⟩ := List.mem_flatMap.mp ha
    obtain ⟨metric, -, rfl⟩ := List.mem_map.mp ha
    obtain ⟨e', he', hb⟩ := List.mem_flatMap.mp hb
    obtain ⟨metric', -, rfl⟩ := List.mem_map.mp hb
    obtain ⟨hcondition, hrest⟩ := Prod.mk.inj (toLex.injective hkey)
    obtain ⟨hmode, hmetric⟩ := Prod.mk.inj (toLex.injective hrest)
    have hgroup : e.1 = e'.1 := congrArg toLex (Prod.ext hcondition hmode)
    have hmetric' : metric = metric' := hmetric
    rw [eq_of_mem_sortedGroups he he' hgroup, hmetric']

theorem analysisOf_congr (order order' : SetOrder) {rows rows' : List Row} (h : rows.Perm rows') :
    analysisOf arith order rows = analysisOf arith order' rows' := by
  simp only [analysisOf, trialRows_congr h, aggregates_congr order order']

/-- What is made of rows that pass. -/
theorem analyze_of_validated {order : SetOrder} {source : Source} {out : List Row}
    (h : validatedRows source.traverse.1 = .ok out) (hmeasured : out.filter isMeasured ≠ []) :
    analyze arith order source = .ok (analysisOf arith order (out.filter isMeasured)) :=
  bind_ok.mpr ⟨out, h, seq_ok.mpr
    ⟨refuse_ok.mpr (List.isEmpty_eq_false_iff.mpr hmeasured), rfl⟩⟩

/-- A permutation of rows that pass passes. -/
theorem validatedRows_perm {rows rows' : List Value} {out : List Row} (hperm : rows'.Perm rows)
    (h : validatedRows rows = .ok out) :
    ∃ out', validatedRows rows' = .ok out' ∧ out'.Perm out := by
  obtain ⟨rfl, hne, hpass, hnodup⟩ := validatedRows_ok.mp h
  have hcomp := congrFun (congrFun (List.eq_map_comp_perm Value.dict) rows') out
  obtain ⟨out', hrows', hout'⟩ := hcomp.mpr hperm
  refine ⟨out', validatedRows_ok.mpr ⟨hrows', fun hnil => hne ?_, fun row hrow => ?_, ?_⟩, hout'⟩
  · rw [hnil] at hout'
    exact List.nil_perm.mp hout'
  · exact hpass row (hout'.mem_iff.mp hrow)
  · exact (hout'.map identity).nodup_iff.mpr hnodup

/-- The analysis is a function of the measured observations: it is the same for every
permutation of the rows, for every sequence that passes and has the same measured rows, and
for a list as for an iterator. -/
theorem analyze_measured {rows : List Value} {out : List Row} (h : validatedRows rows = .ok out)
    (hmeasured : ∃ row ∈ out, isMeasured row = true) :
    ∃ result, ∀ (order : SetOrder) (source : Source),
      (source.traverse.1.Perm rows ∨ ∃ out', validatedRows source.traverse.1 = .ok out' ∧
        (out'.filter isMeasured).Perm (out.filter isMeasured)) →
      analyze arith order source = .ok result := by
  refine ⟨analysisOf arith ⟨id, List.Perm.refl⟩ (out.filter isMeasured),
    fun order source hsource => ?_⟩
  have hout : ∃ out', validatedRows source.traverse.1 = .ok out' ∧
      (out'.filter isMeasured).Perm (out.filter isMeasured) := by
    rcases hsource with hperm | hout
    · obtain ⟨out', hout', hperm⟩ := validatedRows_perm hperm h
      exact ⟨out', hout', hperm.filter _⟩
    · exact hout
  obtain ⟨out', hout', hperm⟩ := hout
  have hne : out'.filter isMeasured ≠ [] := by
    obtain ⟨row, hrow, hrow'⟩ := hmeasured
    exact List.ne_nil_of_mem (hperm.mem_iff.mpr (List.mem_filter.mpr ⟨hrow, hrow'⟩))
  rw [analyze_of_validated hout' hne]
  exact congrArg Except.ok (analysisOf_congr _ _ hperm)

end

/-! ## The setting of the tests -/

/-- A root that leaves the variance as it is, between operations that are exact. -/
def mockArithmetic : Arithmetic := ⟨fun x y => x / y, fun x y => x - y, id⟩

/-- The row of the tests, as a warmup row with this number. -/
def mockWarmup (n : ℤ) : Row := mockRow.map fun e =>
  if e.1 = ("phase" : Str) then (e.1, .str "warmup")
  else if e.1 = ("request_id" : Str) then (e.1, .int n) else e

theorem validatedRows_pair {row row' : Row} (h : Passes row) (h' : Passes row')
    (hne : identity row ≠ identity row') :
    validatedRows [.dict row, .dict row'] = .ok [row, row'] := by
  refine validatedRows_ok.mpr ⟨rfl, List.cons_ne_nil _ _, ?_, ?_⟩
  · simpa using ⟨h, h'⟩
  · simpa using hne

theorem passes_mockWarmup : Passes (mockWarmup 1) ∧ Passes (mockWarmup 2) := by
  refine ⟨⟨?_, ?_⟩, ⟨?_, ?_⟩⟩ <;> decide +kernel

/-- The same rows in the other order and used up by the loop, and another warmup row. -/
theorem analyze_measured_mock : ∃ result,
    analyze mockArithmetic ⟨id, List.Perm.refl⟩ (.iterator [.dict (mockWarmup 1), .dict mockRow]) =
      .ok result ∧
    analyze mockArithmetic ⟨List.reverse, List.reverse_perm⟩
      (.list [.dict mockRow, .dict (mockWarmup 2)]) = .ok result := by
  have hfirst := validatedRows_pair passes_mockRow passes_mockWarmup.1 (by decide +kernel)
  have hother := validatedRows_pair passes_mockRow passes_mockWarmup.2 (by decide +kernel)
  have hmeasured : isMeasured mockRow = true := by decide +kernel
  have hwarmup : isMeasured (mockWarmup 1) = false ∧ isMeasured (mockWarmup 2) = false := by
    decide +kernel
  obtain ⟨result, hresult⟩ := analyze_measured hfirst ⟨mockRow, List.mem_cons_self, hmeasured⟩
  refine ⟨result, hresult _ _ (.inl (List.Perm.swap _ _ [])), hresult _ _ (.inr ⟨_, hother, ?_⟩)⟩
  rw [List.filter_cons_of_pos hmeasured, List.filter_cons_of_pos hmeasured,
    List.filter_cons_of_neg (by simp [hwarmup.2]), List.filter_cons_of_neg (by simp [hwarmup.1])]

end Study
end AdaptiveGateway
