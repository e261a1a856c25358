/-
Nearest-rank percentiles, twice.

`percentile` of the study and `percentile_ms` of the experiment compute the same rank, the
one as a single quotient and the other as a quotient times a length.  `round` is what each of
these operations is rounded to: `nearest` in doubles, and `id` in exact arithmetic.  In
exact arithmetic the two agree.  In doubles the first still has the exact rank, and the
second has not.
-/
import AdaptiveGateway.Study.Analysis

namespace AdaptiveGateway
namespace Study

open Python Numeric

section

variable (round : ℚ → ℚ)

/-- `max(0, math.ceil(n * percent / 100) - 1)`; no index is negative. -/
def rankBy (n percent : Nat) : Nat := (⌈round ((n * percent : Nat) / 100)⌉ - 1).toNat

/-- `percentile`, of values in any order. -/
def percentileBy {κ : Type} [LinearOrder κ] (values : List κ) (percent : Nat) : Option κ :=
  (sortedBy id values)[rankBy round values.length percent]?

end

theorem percentile_eq_percentileBy : percentile = percentileBy nearest := rfl

/-! ## `ConditionStats` -/

/-- What `percentile_ms` reads of a request's outcome. -/
structure RequestResult where
  latencyS : ℚ

structure ConditionStats where
  results : List RequestResult

namespace ConditionStats

def latenciesMs (stats : ConditionStats) : List ℚ :=
  stats.results.map fun r => nearest (r.latencyS * 1000)

/-- `_sorted_latencies_ms`. -/
def sortedLatenciesMs (stats : ConditionStats) : List ℚ := sortedBy id stats.latenciesMs

/-- `percentile_ms`.  The rank lies between 1 and the number of the samples, so that the
index is one of theirs. -/
def percentileMs (round : ℚ → ℚ) (stats : ConditionStats) (pct : ℚ) : Except Exc ℚ :=
  let samples := stats.sortedLatenciesMs
  if samples = [] then .ok 0
  else if ¬(0 ≤ pct ∧ pct ≤ 100) then .error (.valueError "percentile must be in [0, 100]")
  else
    let rank := max 1 ⌈round (round (pct / 100) * samples.length)⌉
    let rank := min rank samples.length
    .ok (samples.getD (rank - 1).toNat 0)

end ConditionStats

/-! ## Ranks -/

/-- `ceil(p * n / 100)` -/
def exactRank (n percent : Nat) : ℤ := ⌈((percent * n : Nat) : ℚ) / 100⌉

section

variable {n percent : Nat}

theorem exactRank_pos (hn : 0 < n) (hpercent : 0 < percent) : 0 < exactRank n percent :=
  Int.ceil_pos.mpr (div_pos (Nat.cast_pos.mpr (Nat.mul_pos hpercent hn)) (by norm_num))

theorem exactRank_le (hpercent : percent ≤ 100) : exactRank n percent ≤ n := by
  refine Int.ceil_le.mpr ?_
  rw [div_le_iff₀ (by norm_num)]
  have hle : percent * n ≤ 100 * n := Nat.mul_le_mul_right n hpercent
  have hcast : ((percent * n : Nat) : ℚ) ≤ (100 * n : Nat) := Nat.cast_le.mpr hle
  push_cast at hcast ⊢
  linarith

theorem exactRank_mono {percent' : Nat} (h : percent ≤ percent') :
    exactRank n percent ≤ exactRank n percent' := by
  refine Int.ceil_le_ceil (div_le_div_of_nonneg_right ?_ (by norm_num))
  exact_mod_cast Nat.mul_le_mul_right n h

theorem rankBy_id : rankBy id n percent = (exactRank n percent - 1).toNat := by
  rw [rankBy, exactRank, mul_comm n percent]
  rfl

theorem rankBy_lt (hn : 0 < n) (hpercent : percent ≤ 100) : rankBy id n percent < n := by
  have hle := exactRank_le (n := n) hpercent
  rw [rankBy_id]
  omega

/-- The double nearest to a number of hundredths has the same ceiling. -/
theorem ceil_nearest_hundredths {m : Nat} (hm : m ≤ 100 * 2 ^ 46) :
    ⌈nearest ((m : ℚ) / 100)⌉ = ⌈(m : ℚ) / 100⌉ := by
  obtain ⟨k, hk⟩ : ∃ k : ℤ, k = ⌈(m : ℚ) / 100⌉ := ⟨_, rfl⟩
  have hx₀ : (0 : ℚ) ≤ m / 100 := by positivity
  have hupper : (m : ℚ) / 100 ≤ k := hk ▸ Int.le_ceil _
  have hlower : (k : ℚ) - 1 < m / 100 := by
    rw [hk]
    linarith [Int.ceil_lt_add_one ((m : ℚ) / 100)]
  have hk₀ : 0 ≤ k := by
    rw [hk]
    exact Int.ceil_nonneg hx₀
  have hk' : k ≤ 2 ^ 46 := by
    rw [hk]
    refine Int.ceil_le.mpr ?_
    rw [div_le_iff₀ (by norm_num)]
    have hcast : (m : ℚ) ≤ ((100 * 2 ^ 46 : Nat) : ℚ) := Nat.cast_le.mpr hm
    push_cast at hcast ⊢
    linarith
  rw [← hk]
  refine Int.ceil_eq_iff.mpr ⟨?_, ?_⟩
  · -- One hundredth above the integer below there is a representable number on the way.
    have hstep : ((k : ℚ) - 1) + 1 / 128 ≤ m / 100 := by
      have hint : 100 * (k - 1) + 1 ≤ (m : ℤ) := by
        have hlt : (((100 * (k - 1) : ℤ)) : ℚ) < ((m : ℤ) : ℚ) := by
          push_cast
          linarith
        exact Int.add_one_le_iff.mpr (Int.cast_lt.mp hlt)
      have hcast : ((100 * (k - 1) + 1 : ℤ) : ℚ) ≤ ((m : ℤ) : ℚ) := Int.cast_le.mpr hint
      push_cast at hcast
      linarith
    have hrep : Representable (((k : ℚ) - 1) + 1 / 128) := by
      refine ⟨(k - 1) * 128 + 1, -7, ?_, by norm_num, ?_⟩
      · rw [abs_lt]
        constructor <;> omega
      · push_cast
        norm_num
        ring
    have hle := nearest_mono hstep
    rw [nearest_eq_self hrep] at hle
    linarith
  · have hrep : Representable (k : ℚ) := by
      refine ⟨k, 0, ?_, by norm_num, by norm_num⟩
      rw [abs_lt]
      constructor <;> omega
    exact (nearest_mono hupper).trans_eq (nearest_eq_self hrep)

/-- In doubles `percentile` computes the exact rank. -/
theorem percentile_eq_exact {values : List ℚ} (hlength : values.length ≤ 2 ^ 46)
    (hpercent : percent ≤ 100) : percentile values percent = percentileBy id values percent := by
  have hm : values.length * percent ≤ 100 * 2 ^ 46 :=
    (Nat.mul_le_mul hlength hpercent).trans_eq (by norm_num)
  rw [percentile_eq_percentileBy, percentileBy, percentileBy, rankBy, rankBy,
    ceil_nearest_hundredths hm]
  rfl

end

/-! ## Nearest rank -/

section

variable {κ : Type} [LinearOrder κ] {values values' : List κ} {percent : Nat}

theorem percentileBy_eq_getElem (hvalues : values ≠ []) (hpercent : percent ≤ 100) :
    ∃ _ : rankBy id values.length percent < (sortedBy id values).length,
      percentileBy id values percent =
        some (sortedBy id values)[rankBy id values.length percent] := by
  have hlt : rankBy id values.length percent < (sortedBy id values).length := by
    rw [(sortedBy_perm id values).length_eq]
    exact rankBy_lt (List.length_pos_iff.mpr hvalues) hpercent
  exact ⟨hlt, List.getElem?_eq_getElem hlt⟩

theorem percentileBy_congr (round : ℚ → ℚ) (h : values.Perm values') :
    percentileBy round values percent = percentileBy round values' percent := by
  rw [percentileBy, percentileBy, sortedBy_id_congr h, h.length_eq]

/-- The value has its rank among all the values. -/
theorem percentileBy_rank (hvalues : values ≠ []) (hpos : 0 < percent) (hpercent : percent ≤ 100)
    {v : κ} (hv : percentileBy id values percent = some v) :
    v ∈ values ∧
      exactRank values.length percent ≤ values.countP (fun x => decide (x ≤ v)) ∧
      values.countP (fun x => decide (x < v)) < exactRank values.length percent := by
  obtain ⟨hlt, heq⟩ := percentileBy_eq_getElem hvalues hpercent
  obtain rfl := Option.some.inj (heq.symm.trans hv)
  have hperm := sortedBy_perm id values
  have hsorted : (sortedBy id values).Pairwise (· ≤ ·) := sortedBy_pairwise id values
  have hrank := exactRank_pos (List.length_pos_iff.mpr hvalues) hpos
  have hindex : rankBy id values.length percent =
      (exactRank values.length percent - 1).toNat := rankBy_id
  refine ⟨hperm.mem_iff.mp (List.getElem_mem hlt), ?_, ?_⟩
  · rw [← hperm.countP_eq]
    have hle := lt_countP_le hsorted hlt
    omega
  · rw [← hperm.countP_eq]
    have hle := countP_lt_le hsorted hlt
    omega

theorem percentileBy_mono {percent' : Nat} (hvalues : values ≠ []) (h : percent ≤ percent')
    (hpercent : percent' ≤ 100) {v w : κ} (hv : percentileBy id values percent = some v)
    (hw : percentileBy id values percent' = some w) : v ≤ w := by
  obtain ⟨hlt, heq⟩ := percentileBy_eq_getElem hvalues (h.trans hpercent)
  obtain ⟨hlt', heq'⟩ := percentileBy_eq_getElem hvalues hpercent
  obtain rfl := Option.some.inj (heq.symm.trans hv)
  obtain rfl := Option.some.inj (heq'.symm.trans hw)
  refine getElem_mono (sortedBy_pairwise id values) hlt' ?_
  rw [rankBy_id, rankBy_id]
  exact Int.toNat_le_toNat (Int.sub_le_sub_right (exactRank_mono h) 1)

end

/-- The two clamps change nothing of a rank in exact arithmetic. -/
theorem percentileMs_eq {stats : ConditionStats} (hresults : stats.results ≠ []) {percent : Nat}
    (hpos : 0 < percent) (hpercent : percent ≤ 100) {v : ℚ}
    (hv : percentileBy id stats.latenciesMs percent = some v) :
    stats.percentileMs id percent = .ok v := by
  have hvalues : stats.latenciesMs ≠ [] := fun h => hresults (List.map_eq_nil_iff.mp h)
  have hperm := sortedBy_perm id stats.latenciesMs
  have hlen : stats.sortedLatenciesMs.length = stats.latenciesMs.length := hperm.length_eq
  have hpos' := exactRank_pos (List.length_pos_iff.mpr hvalues) hpos
  have hle := exactRank_le (n := stats.latenciesMs.length) hpercent
  have hsamples : stats.sortedLatenciesMs ≠ [] := by
    rw [← List.length_pos_iff, hlen]
    exact List.length_pos_iff.mpr hvalues
  have hrange : (0 : ℚ) ≤ percent ∧ (percent : ℚ) ≤ 100 :=
    ⟨Nat.cast_nonneg _, by exact_mod_cast hpercent⟩
  have hrank : ⌈((percent : ℚ) / 100 * stats.sortedLatenciesMs.length)⌉ =
      exactRank stats.latenciesMs.length percent := by
    rw [exactRank, hlen]
    push_cast
    rw [div_mul_eq_mul_div]
  rw [ConditionStats.percentileMs]
  simp only [id]
  rw [if_neg hsamples, if_neg (not_not_intro hrange), hrank, max_eq_right (by omega),
    min_eq_left (by omega), ← rankBy_id, List.getD]
  exact congrArg (fun o : Option ℚ => Except.ok (o.getD 0)) hv

/-- In exact arithmetic both implementations take the value of nearest rank. -/
theorem percentile_nearest_rank :
    (∀ {κ : Type} [LinearOrder κ] (values : List κ), values ≠ [] →
      ∀ percent : Nat, 0 < percent → percent ≤ 100 → ∃ v ∈ values,
        percentileBy id values percent = some v ∧
        ⌈((percent * values.length : Nat) : ℚ) / 100⌉ ≤ values.countP (fun x => decide (x ≤ v)) ∧
        values.countP (fun x => decide (x < v)) < ⌈((percent * values.length : Nat) : ℚ) / 100⌉ ∧
        (∀ percent' w, percent ≤ percent' → percent' ≤ 100 →
          percentileBy id values percent' = some w → v ≤ w) ∧
        ∀ values', values'.Perm values → percentileBy id values' percent = some v) ∧
    ∀ stats : ConditionStats, stats.results ≠ [] →
      ∀ percent : Nat, 0 < percent → percent ≤ 100 → ∃ v,
        percentileBy id stats.latenciesMs percent = some v ∧
        stats.percentileMs id percent = .ok v := by
  constructor
  · intro κ _ values hvalues percent hpos hpercent
    obtain ⟨hlt, hv⟩ := percentileBy_eq_getElem hvalues hpercent
    obtain ⟨hmem, hle, hless⟩ := percentileBy_rank hvalues hpos hpercent hv
    refine ⟨_, hmem, hv, hle, hless, fun percent' w h hpercent' hw => ?_, fun values' hperm => ?_⟩
    · exact percentileBy_mono hvalues h hpercent' hv hw
    · rw [percentileBy_congr id hperm, hv]
  · intro stats hresults percent hpos hpercent
    have hvalues : stats.latenciesMs ≠ [] := fun h => hresults (List.map_eq_nil_iff.mp h)
    obtain ⟨hlt, hv⟩ := percentileBy_eq_getElem hvalues hpercent
    exact ⟨_, hv, percentileMs_eq hresults hpos hpercent hv⟩

theorem percentile_nearest_rank_median : ∃ v ∈ ([3, 1, 2, 2] : List ℚ),
    percentileBy id ([3, 1, 2, 2] : List ℚ) 50 = some v :=
  (percentile_nearest_rank.1 ([3, 1, 2, 2] : List ℚ) (by decide) 50 (by decide) (by decide)).imp
    fun _ h => ⟨h.1, h.2.1⟩

/-- The 28th percentile of 25 samples is the seventh, and in doubles the eighth. -/
example : exactRank 25 28 = 7 ∧ ⌈nearest (nearest (28 / 100) * 25)⌉ = 8 := by decide +kernel

end Study
end AdaptiveGateway
