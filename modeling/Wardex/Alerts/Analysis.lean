import Mathlib.Algebra.Order.Chebyshev
import Mathlib.Algebra.Order.Floor.Ring
import Mathlib.Algebra.Order.Ring.Abs
import Mathlib.Analysis.Real.Sqrt
import Mathlib.Data.List.GetD
import Wardex.Alerts.Deduplication
import Wardex.Lib.WeightedMean

/-! Analysis of the alerts of a window: their clusters in time, outliers among their scores, the
trend of the scores and the pattern they make.  Scores are exact, square roots are a parameter, and
so is how a hash map is walked through. -/

namespace Wardex.Alerts

open Wardex.Lib
open Wardex.Events (timestamp)

inductive AlertPattern where
  | baseline
  | periodicBursts (avgIntervalSecs : ℚ) (burstSeverity : String)
  | escalating
  | sustained (severity : String)
  | mixed
deriving DecidableEq

inductive ScoreTrend where
  | stable
  | rising (slope : ℚ)
  | falling (slope : ℚ)
  | volatile
deriving DecidableEq

structure AlertCluster where
  first : String
  last : String
  count : ℕ
  avgScore : ℚ
  maxScore : ℚ
  representativeReasons : List String
  level : String
deriving DecidableEq

structure AlertAnomaly (K : Type*) where
  index : ℕ
  timestamp : String
  score : ℚ
  reasons : List String
  deviationFromMean : K

structure SeverityBreakdown where
  critical : ℕ
  severe : ℕ
  elevated : ℕ

structure AlertAnalysis (K : Type*) where
  windowStart : String
  windowEnd : String
  totalAlerts : ℕ
  pattern : AlertPattern
  scoreTrend : ScoreTrend
  dominantReasons : List (String × ℕ)
  clusters : List AlertCluster
  anomalies : List (AlertAnomaly K)
  severityBreakdown : SeverityBreakdown

def computeSeverity (alerts : List AlertRecord) : SeverityBreakdown where
  critical := alerts.countP fun a => a.level = "Critical"
  severe := alerts.countP fun a => a.level = "Severe"
  elevated := alerts.countP fun a => a.level = "Elevated"

/-! ### Reasons -/

/-- A reason without its numbers; the second suffix is looked for only where the first is not. -/
def reasonKey (reason : String) : String :=
  match splitFirst " (+".toList reason.toList with
  | some (before, _) => String.ofList before
  | none => truncateAt " (-" reason

def computeReasonHistogram (order : IterationOrder String) (alerts : List AlertRecord) :
    List (String × ℕ) :=
  let keys := alerts.flatMap fun a => a.reasons.map reasonKey
  let counts := (order.order keys.dedup).map fun key => (key, keys.count key)
  (counts.insertionSort (Rising fun p => OrderDual.toDual p.2)).take 10

/-! ### Clusters -/

section

variable (parse : String → Option ℤ) (order : IterationOrder String)

def parseTimestamps (alerts : List AlertRecord) : List (Option ℤ) :=
  alerts.map fun a => (parse a.timestamp).map timestamp

/-- A timestamp that is not read is near to none. -/
def nearby (gapSecs : ℕ) (t u : Option ℤ) : Bool :=
  match t, u with
  | some t, some u => decide ((u - t).natAbs ≤ gapSecs)
  | _, _ => false

/-- One round of the loop over the positions: the clusters that are done, and the current one. -/
def extendCluster (timestamps : List (Option ℤ)) (gapSecs : ℕ) (s : List (List ℕ) × List ℕ)
    (i : ℕ) : List (List ℕ) × List ℕ :=
  if nearby gapSecs (timestamps[i - 1]?.join) (timestamps[i]?.join) then (s.1, s.2 ++ [i])
  else (s.1 ++ [s.2], [i])

def clusterIndices (timestamps : List (Option ℤ)) (gapSecs : ℕ) : List (List ℕ) :=
  let s := (List.range' 1 (timestamps.length - 1)).foldl (extendCluster timestamps gapSecs)
    ([], [0])
  if s.2 ≠ [] then s.1 ++ [s.2] else s.1

def AlertCluster.build (subset : List AlertRecord) : AlertCluster :=
  let scores := subset.map AlertRecord.score
  { first := subset.head?.elim "" AlertRecord.timestamp
    last := subset.getLast?.elim "" AlertRecord.timestamp
    count := subset.length
    avgScore := roundHundredths (scores.sum / scores.length)
    maxScore := roundHundredths (scores.foldl max 0)
    representativeReasons := ((computeReasonHistogram order subset).take 3).map Prod.fst
    level := highestLevel (subset.map AlertRecord.level) }

def computeClusters (alerts : List AlertRecord) (gapSecs : ℕ) : List AlertCluster :=
  if alerts.isEmpty then []
  else
    ((clusterIndices (parseTimestamps parse alerts) gapSecs).filter fun c => c.length ≥ 2).map
      fun indices => .build order (indices.filterMap fun i => alerts[i]?)

end

/-! ### Outliers -/

section

variable {K : Type*} [Field K] [LinearOrder K] [FloorRing K] (sqrt : K → K)

def hundredths (x : K) : K :=
  (if 0 ≤ x then ⌊x * 100 + 1 / 2⌋ else ⌈x * 100 - 1 / 2⌉ : ℤ) / 100

/-- The mean of the scores and that of the squares of their distances to it. -/
def spread (scores : List ℚ) : ℚ × ℚ :=
  let mean := scores.sum / scores.length
  (mean, (scores.map fun s => (s - mean) ^ 2).sum / scores.length)

def computeAnomalies (alerts : List AlertRecord) : List (AlertAnomaly K) :=
  if alerts.length < 3 then []
  else
    let (mean, variance) := spread (alerts.map AlertRecord.score)
    let stdDev := sqrt variance
    if stdDev < 1 / 100 then []
    else
      alerts.zipIdx.filterMap fun (a, i) =>
        let deviation := ((a.score - mean : ℚ) : K) / stdDev
        if |deviation| ≥ 2 then
          some ⟨i, a.timestamp, a.score, a.reasons, hundredths deviation⟩
        else none

/-! ### Trend and pattern -/

/-- The sums of the regression of the scores on their positions. -/
def regression (scores : List ℚ) : ℚ × ℚ :=
  let meanX := ((scores.length : ℚ) - 1) / 2
  let meanY := scores.sum / scores.length
  scores.zipIdx.foldl
    (fun s p => (s.1 + ((p.2 : ℚ) - meanX) * (p.1 - meanY), s.2 + ((p.2 : ℚ) - meanX) ^ 2)) (0, 0)

/-- What a slope is called, rounded to thousandths. -/
def ScoreTrend.ofSlope (slope : ℚ) : ScoreTrend :=
  let slopeRounded : ℚ := roundAway (slope * 1000) / 1000
  if slopeRounded > 1 / 100 then .rising slopeRounded
  else if slopeRounded < -(1 / 100) then .falling slopeRounded
  else .stable

/-- The coefficient of variation, where the mean is not near zero. -/
def volatility (scores : List ℚ) : K :=
  let (mean, variance) := spread scores
  if |mean| > 1 / 100 then sqrt variance / ((|mean| : ℚ) : K) else 0

def computeTrend (alerts : List AlertRecord) : ScoreTrend :=
  if alerts.length < 3 then .stable
  else
    let scores := alerts.map AlertRecord.score
    let (num, den) := regression scores
    if |den| < 1 / 10 ^ 9 then .stable
    else if volatility sqrt scores > 1 / 2 then .volatile
    else .ofSlope (num / den)

end

/-- The slope of a rising trend. -/
def ScoreTrend.slope : ScoreTrend → ℚ
  | rising slope => slope
  | _ => 0

def isHigh (a : AlertRecord) : Bool := a.level = "Severe" ∨ a.level = "Critical"

def classifyPattern (parse : String → Option ℤ) (alerts : List AlertRecord)
    (clusters : List AlertCluster) (trend : ScoreTrend) (severity : SeverityBreakdown) :
    AlertPattern :=
  let total := alerts.length
  if total = 0 then .baseline
  else
    let highSev := severity.critical + severity.severe
    if highSev = 0 then .baseline
    else
      let firstHalf := alerts.take (total / 2)
      if trend.slope > 5 / 100 ∧
          (firstHalf.countP isHigh : ℚ) / (max firstHalf.length 1 : ℕ) < 1 / 2 then
        .escalating
      else if (highSev : ℚ) / total > 6 / 10 then
        .sustained (if severity.critical > severity.severe then "Critical" else "Severe")
      else
        let clusterStarts := clusters.filterMap fun c => (parse c.first).map timestamp
        if clusters.length ≥ 2 ∧ clusterStarts.length ≥ 2 then
          let intervals := List.zipWith (fun t u => u - t) clusterStarts clusterStarts.tail
          let avgInterval := ((intervals.sum : ℤ) : ℚ) / intervals.length
          .periodicBursts (roundAway (avgInterval * 10) / 10)
            (highestLevel (clusters.map AlertCluster.level))
        else .mixed

/-- The alerts of the window in the order of the texts of their timestamps; `cutoff` is the text of
the time so many minutes ago. -/
def windowed (cutoff : ℕ → String) (alerts : List AlertRecord) (windowMinutes : ℕ) :
    List AlertRecord :=
  (if windowMinutes = 0 ∨ alerts.isEmpty then alerts
    else alerts.filter fun a => a.timestamp ≥ cutoff windowMinutes).insertionSort
      (Rising AlertRecord.timestamp)

def analyzeAlerts {K : Type*} [Field K] [LinearOrder K] [FloorRing K] (sqrt : K → K)
    (parse : String → Option ℤ) (order : IterationOrder String) (cutoff : ℕ → String)
    (alerts : List AlertRecord) (windowMinutes : ℕ) : AlertAnalysis K :=
  let filtered := windowed cutoff alerts windowMinutes
  if filtered.isEmpty then
    { windowStart := "", windowEnd := "", totalAlerts := 0, pattern := .baseline
      scoreTrend := .stable, dominantReasons := [], clusters := [], anomalies := []
      severityBreakdown := ⟨0, 0, 0⟩ }
  else
    let severityBreakdown := computeSeverity filtered
    let clusters := computeClusters parse order filtered 30
    let scoreTrend := computeTrend sqrt filtered
    { windowStart := filtered.head?.elim "" AlertRecord.timestamp
      windowEnd := filtered.getLast?.elim "" AlertRecord.timestamp
      totalAlerts := filtered.length
      pattern := classifyPattern parse filtered clusters scoreTrend severityBreakdown
      scoreTrend
      dominantReasons := computeReasonHistogram order filtered
      clusters
      anomalies := computeAnomalies sqrt filtered
      severityBreakdown }

/-! ### Clusters are maximal runs -/

section

variable {parse : String → Option ℤ} {gapSecs : ℕ}

/-- Whether two positions are near in time. -/
def nearAt (timestamps : List (Option ℤ)) (gapSecs i j : ℕ) : Bool :=
  nearby gapSecs timestamps[i]?.join timestamps[j]?.join

theorem foldl_extendCluster (timestamps : List (Option ℤ)) (gapSecs k : ℕ) :
    ∃ bursts current, (List.range' 1 k).foldl (extendCluster timestamps gapSecs) ([], [0]) =
        (bursts, current) ∧ current ≠ [] ∧
      (List.range (k + 1)).splitBy (nearAt timestamps gapSecs) = bursts ++ [current] := by
  induction k with
  | zero => exact ⟨[], [0], rfl, List.cons_ne_nil 0 [], rfl⟩
  | succ k ih =>
    obtain ⟨bursts, current, hfold, hcurrent, hsplit⟩ := ih
    have hlast : (List.range (k + 1)).getLast? = some k := by simp [List.range_succ]
    have hnext := splitBy_concat hsplit hlast (k + 1)
    rw [List.range'_1_concat, List.foldl_concat, hfold, Nat.add_comm 1 k, List.range_succ, hnext,
      extendCluster, Nat.add_sub_cancel]
    change ∃ bursts' current', (if nearAt timestamps gapSecs k (k + 1) then _ else _) = _ ∧ _
    split_ifs
    · exact ⟨bursts, current ++ [k + 1], rfl, List.append_ne_nil_of_left_ne_nil hcurrent _, rfl⟩
    · exact ⟨bursts ++ [current], [k + 1], rfl, List.cons_ne_nil _ _, rfl⟩

theorem clusterIndices_eq {timestamps : List (Option ℤ)} (h : timestamps ≠ []) (gapSecs : ℕ) :
    clusterIndices timestamps gapSecs =
      (List.range timestamps.length).splitBy (nearAt timestamps gapSecs) := by
  obtain ⟨bursts, current, hfold, hcurrent, hsplit⟩ :=
    foldl_extendCluster timestamps gapSecs (timestamps.length - 1)
  have hlength : timestamps.length - 1 + 1 = timestamps.length :=
    Nat.sub_add_cancel (List.length_pos_iff.mpr h)
  rw [hlength] at hsplit
  rw [clusterIndices, hfold, hsplit]
  exact if_pos hcurrent

/-- Whether two alerts are near in time. -/
def Near (parse : String → Option ℤ) (gapSecs : ℕ) (a b : AlertRecord) : Bool :=
  nearby gapSecs ((parse a.timestamp).map timestamp) ((parse b.timestamp).map timestamp)

/-- The bursts of positions are the bursts of the alerts at them. -/
theorem splitBy_range (parse : String → Option ℤ) (gapSecs : ℕ) (alerts : List AlertRecord) :
    (((List.range alerts.length).splitBy (nearAt (parseTimestamps parse alerts) gapSecs)).map
      (List.map fun i => alerts[i]?)) =
    (alerts.splitBy (Near parse gapSecs)).map (List.map some) := by
  let near : Option AlertRecord → Option AlertRecord → Bool := fun a b =>
    nearby gapSecs (a.bind fun a => (parse a.timestamp).map timestamp)
      (b.bind fun b => (parse b.timestamp).map timestamp)
  have hnear : nearAt (parseTimestamps parse alerts) gapSecs =
      fun i j => near alerts[i]? alerts[j]? := by
    funext i j
    have hread (k : ℕ) : (parseTimestamps parse alerts)[k]?.join =
        alerts[k]?.bind fun a => (parse a.timestamp).map timestamp := by
      rw [parseTimestamps, List.getElem?_map]
      cases alerts[k]? <;> rfl
    rw [nearAt, hread, hread]
  have hall : (List.range alerts.length).map (fun i => alerts[i]?) = alerts.map some := by
    refine List.ext_getElem? fun i => ?_
    rw [List.getElem?_map, List.getElem?_map]
    by_cases hi : i < alerts.length
    · rw [List.getElem?_range hi, List.getElem?_eq_getElem hi]
      simp [hi]
    · rw [List.getElem?_eq_none (by simpa using hi), List.getElem?_eq_none (by simpa using hi)]
      rfl
  rw [hnear, ← splitBy_map near, hall]
  exact splitBy_map near some alerts

/-- The clusters are the bursts of more than one alert. -/
theorem computeClusters_eq (order : IterationOrder String) (alerts : List AlertRecord) :
    computeClusters parse order alerts gapSecs =
      ((alerts.splitBy (Near parse gapSecs)).filter fun run => run.length ≥ 2).map
        (.build order) := by
  unfold computeClusters
  split_ifs with hempty
  · rw [List.isEmpty_iff.mp hempty]
    rfl
  · have hne : parseTimestamps parse alerts ≠ [] :=
      fun h => hempty (List.isEmpty_iff.mpr (List.map_eq_nil_iff.mp h))
    have hlength : (parseTimestamps parse alerts).length = alerts.length := List.length_map _
    have hread (indices : List ℕ) : (indices.filterMap fun i => alerts[i]?) =
        (indices.map fun i => alerts[i]?).reduceOption := by
      change _ = (indices.map fun i => alerts[i]?).filterMap id
      rw [List.filterMap_map]
      rfl
    have hkept (run : List AlertRecord) : (run.map some).reduceOption = run :=
      (List.filterMap_map ..).trans List.filterMap_some
    have hback (runs : List (List AlertRecord)) :
        (runs.map (List.map some)).map List.reduceOption = runs := by
      rw [List.map_map]
      refine (List.map_congr_left fun run _ => ?_).trans (List.map_id _)
      exact hkept run
    rw [clusterIndices_eq hne, hlength]
    generalize hbursts : (List.range alerts.length).splitBy _ = bursts
    have hruns := splitBy_range parse gapSecs alerts
    rw [hbursts] at hruns
    have hsplit : alerts.splitBy (Near parse gapSecs) =
        bursts.map fun indices => indices.filterMap fun i => alerts[i]? := by
      rw [← hback (alerts.splitBy _), ← hruns, List.map_map]
      exact List.map_congr_left fun indices _ => (hread indices).symm
    have hsize : ∀ indices ∈ bursts,
        (indices.filterMap fun i => alerts[i]?).length = indices.length := by
      intro indices hmem
      have hrun := List.mem_map_of_mem (f := List.map fun i => alerts[i]?) hmem
      rw [hruns] at hrun
      obtain ⟨run, -, hsome⟩ := List.mem_map.mp hrun
      rw [hread, ← hsome, hkept]
      simpa using congrArg List.length hsome
    rw [hsplit, List.filter_map, List.map_map]
    congr 1
    refine List.filter_congr fun indices hmem => ?_
    rw [Function.comp_apply, hsize indices hmem]

/-- A cluster is a run of alerts of which each comes within thirty seconds of the one before, with
more than thirty seconds before the run and after it; and every such run is a cluster unless it is
one alert. -/
theorem analyzeAlerts_clusters {K : Type*} [Field K] [LinearOrder K] [FloorRing K] (sqrt : K → K)
    (parse : String → Option ℤ) (order : IterationOrder String) (cutoff : ℕ → String)
    (alerts : List AlertRecord) (windowMinutes : ℕ) :
    ∃ runs : List (List AlertRecord),
      runs.flatten = windowed cutoff alerts windowMinutes ∧
      [] ∉ runs ∧
      (∀ run ∈ runs, run.IsChain fun a b => Near parse 30 a b) ∧
      (runs.IsChain fun run next => ∃ hrun hnext,
        Near parse 30 (run.getLast hrun) (next.head hnext) = false) ∧
      (analyzeAlerts sqrt parse order cutoff alerts windowMinutes).clusters =
        (runs.filter fun run => run.length ≥ 2).map (.build order) := by
  refine ⟨(windowed cutoff alerts windowMinutes).splitBy (Near parse 30),
    List.flatten_splitBy _ _, List.nil_notMem_splitBy _ _,
    fun run hrun => List.isChain_of_mem_splitBy hrun, List.isChain_getLast_head_splitBy _ _, ?_⟩
  rw [← computeClusters_eq]
  unfold analyzeAlerts
  dsimp only
  split_ifs with hempty
  · rw [List.isEmpty_iff.mp hempty]
    rfl
  · rfl

end

/-! ### There are few outliers -/

theorem spread_eq (scores : List ℚ) : spread scores = (mean scores, variance scores) := by
  refine Prod.ext rfl ?_
  change (scores.map fun s => (s - mean scores) ^ 2).sum / (scores.length : ℚ) = variance scores
  rw [sum_sq_sub_mean]
  rcases eq_or_ne scores [] with rfl | hne
  · simp [variance, mean]
  · exact mul_div_cancel_left₀ _ (Nat.cast_ne_zero.mpr (mt List.length_eq_zero_iff.mp hne))

/-- Whether a score is two standard deviations away from the mean. -/
def outlying (scores : List ℚ) (score : ℚ) : Bool :=
  4 * variance scores ≤ (score - mean scores) ^ 2

def outlyingAt (alerts : List AlertRecord) : List ℕ :=
  (alerts.zipIdx.filter fun p => outlying (alerts.map AlertRecord.score) p.1.score).map Prod.snd

theorem length_outlyingAt (alerts : List AlertRecord) : (outlyingAt alerts).length =
    (alerts.map AlertRecord.score).countP (outlying (alerts.map AlertRecord.score)) := by
  rw [outlyingAt, List.length_map, ← List.countP_eq_length_filter, List.countP_map]
  generalize outlying (alerts.map AlertRecord.score) = far
  have hfst : alerts.zipIdx.map Prod.fst = alerts := List.zipIdx_map_fst 0 alerts
  have hcount := List.countP_map (p := far ∘ AlertRecord.score) (f := Prod.fst) (l := alerts.zipIdx)
  rw [hfst] at hcount
  exact hcount.symm

/-- Four values do not spread so far. -/
theorem outlyingAt_eq_nil {alerts : List AlertRecord} (h : alerts.length < 5)
    (hpos : 0 < variance (alerts.map AlertRecord.score)) : outlyingAt alerts = [] := by
  rw [← List.length_eq_zero_iff, length_outlyingAt, List.countP_eq_zero]
  intro x hx hfar
  have hnear := sq_sub_mean_le_of_mem hx
  have hfew : ((alerts.map AlertRecord.score).length : ℚ) ≤ 4 := by
    rw [List.length_map]
    exact_mod_cast Nat.le_of_lt_succ h
  have hle := of_decide_eq_true hfar
  nlinarith

section

variable {K : Type*} [Field K] [LinearOrder K] [IsStrictOrderedRing K] [FloorRing K]
  {sqrt : K → K} (hsqrt : ∀ x, 0 ≤ x → 0 ≤ sqrt x ∧ sqrt x * sqrt x = x)
include hsqrt

theorem hundredth_le_sqrt_iff {v : ℚ} (hv : 0 ≤ v) :
    1 / 100 ≤ sqrt (v : K) ↔ 1 / 10000 ≤ v := by
  obtain ⟨hnonneg, hsq⟩ := hsqrt v (Rat.cast_nonneg.mpr hv)
  have hcast : (1 / 10000 : ℚ) ≤ v ↔ (1 / 100 : K) ^ 2 ≤ sqrt (v : K) ^ 2 := by
    rw [sq (sqrt _), hsq, ← Rat.cast_le (K := K)]
    norm_num
  rw [hcast]
  exact (sq_le_sq₀ (by norm_num) hnonneg).symm

theorem two_le_abs_div_iff {v d : ℚ} (hv : 0 ≤ v) (hpos : 0 < sqrt (v : K)) :
    |(d : K) / sqrt v| ≥ 2 ↔ 4 * v ≤ d ^ 2 := by
  obtain ⟨hnonneg, hsq⟩ := hsqrt v (Rat.cast_nonneg.mpr hv)
  have hcast : 4 * v ≤ d ^ 2 ↔ (2 * sqrt (v : K)) ^ 2 ≤ |(d : K)| ^ 2 := by
    rw [mul_pow, sq (sqrt _), hsq, sq_abs, ← Rat.cast_le (K := K)]
    norm_num
  rw [hcast, ge_iff_le, abs_div, abs_of_pos hpos, le_div_iff₀ hpos]
  exact (sq_le_sq₀ (by linarith) (abs_nonneg _)).symm

theorem map_index_computeAnomalies (alerts : List AlertRecord) :
    (computeAnomalies sqrt alerts).map AlertAnomaly.index =
      if 1 / 10000 ≤ variance (alerts.map AlertRecord.score) then outlyingAt alerts else [] := by
  have hv := variance_nonneg (alerts.map AlertRecord.score)
  have hstd := hundredth_le_sqrt_iff hsqrt hv
  unfold computeAnomalies
  rw [spread_eq]
  dsimp only
  by_cases hvar : 1 / 10000 ≤ variance (alerts.map AlertRecord.score)
  · have hpos : 0 < variance (alerts.map AlertRecord.score) := by linarith
    rw [if_pos hvar, if_neg (not_lt.mpr (hstd.mpr hvar))]
    split_ifs with hfew
    · exact (outlyingAt_eq_nil (by omega) hpos).symm
    · have hsqrtPos : 0 < sqrt ((variance (alerts.map AlertRecord.score) : ℚ) : K) := by
        have hle := hstd.mpr hvar
        linarith
      rw [outlyingAt]
      generalize alerts.map AlertRecord.score = scores at *
      rw [List.map_filterMap, ← List.filterMap_eq_map, List.filterMap_filter]
      refine List.filterMap_congr fun p _ => ?_
      have hfar : _ ↔ outlying scores p.1.score = true :=
        (two_le_abs_div_iff hsqrt hv hsqrtPos).trans decide_eq_true_iff.symm
      by_cases h : outlying scores p.1.score = true
      · rw [if_pos (hfar.mpr h), if_pos h]
        rfl
      · rw [if_neg (mt hfar.mp h), if_neg h]
        rfl
  · rw [if_neg hvar, if_pos (not_le.mp (mt hstd.mp hvar))]
    split_ifs <;> rfl

end

/-- The trend of the same scores the other way round. -/
def ScoreTrend.mirrored : ScoreTrend → ScoreTrend
  | rising slope => falling (-slope)
  | falling slope => rising (-slope)
  | trend => trend

theorem sum_map_zipIdx {M : Type*} [AddCommMonoid M] (f : ℚ × ℕ → M) (scores : List ℚ) :
    (scores.zipIdx.map f).sum = ∑ i ∈ Finset.range scores.length, f (scores.getD i 0, i) := by
  induction scores using List.reverseRecOn with
  | nil => rfl
  | append_singleton scores score ih =>
    rw [List.zipIdx_append, List.map_append, List.sum_append, ih, List.length_append,
      List.length_singleton, Finset.sum_range_succ]
    congr 1
    · refine Finset.sum_congr rfl fun i hi => ?_
      rw [List.getD_append _ _ _ _ (Finset.mem_range.mp hi)]
    · simp

theorem regression_eq (scores : List ℚ) : regression scores =
    (∑ i ∈ Finset.range scores.length,
        ((i : ℚ) - ((scores.length : ℚ) - 1) / 2) * (scores.getD i 0 - mean scores),
      ∑ i ∈ Finset.range scores.length, ((i : ℚ) - ((scores.length : ℚ) - 1) / 2) ^ 2) := by
  have hfold (g h : ℚ × ℕ → ℚ) (l : List (ℚ × ℕ)) (s : ℚ × ℚ) :
      l.foldl (fun s p => (s.1 + g p, s.2 + h p)) s =
        (s.1 + (l.map g).sum, s.2 + (l.map h).sum) := by
    induction l generalizing s with
    | nil => simp
    | cons p l ih => simp [ih, add_assoc]
  rw [regression, hfold, sum_map_zipIdx, sum_map_zipIdx]
  simp [mean]

theorem regression_reverse (scores : List ℚ) :
    regression scores.reverse = (-(regression scores).1, (regression scores).2) := by
  have hmean : mean scores.reverse = mean scores := by
    rw [mean, mean, List.sum_reverse, List.length_reverse]
  rw [regression_eq, regression_eq, List.length_reverse, hmean]
  refine Prod.ext ?_ rfl
  dsimp only
  rw [← Finset.sum_range_reflect, ← Finset.sum_neg_distrib]
  refine Finset.sum_congr rfl fun i hi => ?_
  have hlt := Finset.mem_range.mp hi
  have hplace : ((scores.length - 1 - i : ℕ) : ℚ) = scores.length - 1 - i := by
    rw [Nat.cast_sub (by omega), Nat.cast_sub (by omega), Nat.cast_one]
  have hback : scores.length - 1 - (scores.length - 1 - i) = i := by omega
  rw [List.getD_reverse _ (by omega), hback, hplace]
  ring

theorem sum_sub_mean (scores : List ℚ) :
    ∑ i ∈ Finset.range scores.length, (scores.getD i 0 - mean scores) = 0 := by
  have hsum := sum_map_zipIdx Prod.fst scores
  rw [List.zipIdx_map_fst] at hsum
  rw [Finset.sum_sub_distrib, ← hsum, Finset.sum_const, Finset.card_range, nsmul_eq_mul, mean]
  rcases eq_or_ne scores [] with rfl | hne
  · simp
  · rw [mul_div_cancel₀ _ (Nat.cast_ne_zero.mpr (mt List.length_eq_zero_iff.mp hne)), sub_self]

/-- Scores that never fall have no falling regression. -/
theorem regression_nonneg {scores : List ℚ} (h : scores.Pairwise (· ≤ ·)) :
    0 ≤ (regression scores).1 ∧ 0 ≤ (regression scores).2 := by
  rw [regression_eq]
  dsimp only
  refine ⟨?_, Finset.sum_nonneg fun i _ => sq_nonneg _⟩
  have hmono : MonovaryOn (fun i : ℕ => (i : ℚ) - ((scores.length : ℚ) - 1) / 2)
      (fun i => scores.getD i 0 - mean scores) (Finset.range scores.length) := by
    intro i hi j hj hlt
    have hi := Finset.mem_range.mp hi
    have hj := Finset.mem_range.mp hj
    by_contra hnot
    have hji : j < i := by
      rw [not_le, sub_lt_sub_iff_right, Nat.cast_lt] at hnot
      exact hnot
    have hle := List.pairwise_iff_getElem.mp h j i hj hi hji
    dsimp only at hlt
    rw [List.getD_eq_getElem _ _ hi, List.getD_eq_getElem _ _ hj] at hlt
    linarith
  have hsum := hmono.sum_mul_sum_le_card_mul_sum
  rw [sum_sub_mean, mul_zero, Finset.card_range] at hsum
  rcases Nat.eq_zero_or_pos scores.length with hzero | hpos
  · rw [hzero]
    rfl
  · exact nonneg_of_mul_nonneg_right hsum (Nat.cast_pos.mpr hpos)

theorem roundAway_neg (q : ℚ) : roundAway (-q) = -roundAway q := by
  unfold roundAway
  rcases lt_trichotomy q 0 with hneg | rfl | hpos
  · rw [if_pos (by linarith), if_neg (by linarith), ← Int.floor_neg]
    congr 1
    ring
  · norm_num
  · rw [if_neg (by linarith), if_pos hpos.le, ← Int.ceil_neg]
    congr 1
    ring

theorem roundAway_nonneg {q : ℚ} (h : 0 ≤ q) : 0 ≤ roundAway q := by
  rw [roundAway, if_pos h, Int.floor_nonneg]
  linarith

section

variable {K : Type*} [Field K] [LinearOrder K] (sqrt : K → K) (alerts : List AlertRecord)

theorem ofSlope_neg (slope : ℚ) :
    ScoreTrend.ofSlope (-slope) = (ScoreTrend.ofSlope slope).mirrored := by
  unfold ScoreTrend.ofSlope
  rw [neg_mul, roundAway_neg, Int.cast_neg, neg_div]
  dsimp only
  generalize (roundAway (slope * 1000) : ℚ) / 1000 = r
  rcases lt_trichotomy r 0 with hneg | rfl | hpos
  · have hnot : ¬ r > 1 / 100 := by linarith
    have hnot' : ¬ -r < -(1 / 100) := by linarith
    rw [if_neg hnot, if_neg hnot', if_congr (lt_neg (a := 1 / 100)) rfl rfl]
    split_ifs <;> rfl
  · norm_num [ScoreTrend.mirrored]
  · have hnot : ¬ -r > 1 / 100 := by linarith
    have hnot' : ¬ r < -(1 / 100) := by linarith
    rw [if_neg hnot, if_neg hnot', if_congr neg_lt_neg_iff rfl rfl]
    split_ifs <;> rfl

omit [LinearOrder K] in
theorem volatility_reverse (scores : List ℚ) :
    volatility sqrt scores.reverse = volatility sqrt scores := by
  have hmean : mean scores.reverse = mean scores := by
    rw [mean, mean, List.sum_reverse, List.length_reverse]
  have hvariance : variance scores.reverse = variance scores := by
    rw [variance, variance, hmean, List.map_reverse, List.sum_reverse, List.length_reverse]
  rw [volatility, volatility, spread_eq, spread_eq, hmean, hvariance]

/-- The trend is that of the regression unless there are few scores or they are all over the
place. -/
theorem computeTrend_cases : computeTrend sqrt alerts = .stable ∨
    computeTrend sqrt alerts = .volatile ∨
    computeTrend sqrt alerts = .ofSlope ((regression (alerts.map AlertRecord.score)).1 /
      (regression (alerts.map AlertRecord.score)).2) := by
  unfold computeTrend
  dsimp only
  split_ifs
  · exact .inl rfl
  · exact .inl rfl
  · exact .inr (.inl rfl)
  · exact .inr (.inr rfl)

theorem mirrored_computeTrend :
    computeTrend sqrt alerts.reverse = (computeTrend sqrt alerts).mirrored := by
  unfold computeTrend
  dsimp only
  rw [List.length_reverse, List.map_reverse, regression_reverse, volatility_reverse, neg_div,
    ofSlope_neg]
  split_ifs <;> rfl

theorem mirrored_mirrored (trend : ScoreTrend) : trend.mirrored.mirrored = trend := by
  cases trend <;> simp [ScoreTrend.mirrored]

/-- Scores that never fall make no falling trend. -/
theorem computeTrend_ne_falling (h : (alerts.map AlertRecord.score).Pairwise (· ≤ ·)) (slope : ℚ) :
    computeTrend sqrt alerts ≠ .falling slope := by
  obtain ⟨hnum, hden⟩ := regression_nonneg h
  rcases computeTrend_cases sqrt alerts with hstable | hvolatile | hslope
  · rw [hstable]
    exact ScoreTrend.noConfusion
  · rw [hvolatile]
    exact ScoreTrend.noConfusion
  · have hround : (0 : ℚ) ≤ roundAway ((regression (alerts.map AlertRecord.score)).1 /
        (regression (alerts.map AlertRecord.score)).2 * 1000) / 1000 :=
      div_nonneg (Int.cast_nonneg (roundAway_nonneg (mul_nonneg (div_nonneg hnum hden)
        (by norm_num)))) (by norm_num)
    rw [hslope, ScoreTrend.ofSlope]
    rw [if_neg (c := _ < -(1 / 100)) (by linarith)]
    split_ifs <;> exact ScoreTrend.noConfusion

end

/-! ### Groups -/

structure AlertGroup where
  id : ℕ
  firstSeen : String
  lastSeen : String
  count : ℕ
  avgScore : ℚ
  maxScore : ℚ
  level : String
  reasonFingerprint : String
  representativeReasons : List String
  indices : List ℕ

def AlertGroup.build (gid : ℕ) (bucket : String × List Member) : AlertGroup :=
  let members := inTextOrder bucket.2
  let alerts := members.map Prod.fst
  let scores := alerts.map AlertRecord.score
  { id := gid
    firstSeen := alerts.head?.elim "" AlertRecord.timestamp
    lastSeen := alerts.getLast?.elim "" AlertRecord.timestamp
    count := members.length
    avgScore := scores.sum / members.length
    maxScore := scores.foldl max 0
    level := highestLevel (alerts.map AlertRecord.level)
    reasonFingerprint := bucket.1
    representativeReasons := alerts.head?.elim [] AlertRecord.reasons
    indices := members.map Prod.snd }

/-- The most recent groups come first, and of those that were seen last at one time the larger. -/
def AlertGroup.rank (g : AlertGroup) : (String ×ₗ ℕ)ᵒᵈ :=
  OrderDual.toDual (toLex (g.lastSeen, g.count))

def fingerprinted (alerts : List AlertRecord) : List (String × Member) :=
  alerts.zipIdx.map fun member => (reasonFingerprint member.1, member)

def groupAlerts (order : IterationOrder String) (alerts : List AlertRecord) : List AlertGroup :=
  let built := (groups order (fingerprinted alerts)).zipIdx.map fun p => AlertGroup.build p.2 p.1
  (built.insertionSort (Rising AlertGroup.rank)).zipIdx.map fun p => { p.1 with id := p.2 }

/-- Apart from its number, each group is one bucket. -/
theorem groupAlerts_perm {β : Type*} {f : AlertGroup → β} (hf : ∀ g id, f { g with id := id } = f g)
    (order : IterationOrder String) (alerts : List AlertRecord) :
    ((groupAlerts order alerts).map f).Perm
      ((groups order (fingerprinted alerts)).map fun bucket => f (.build 0 bucket)) := by
  have hfst {γ : Type} (g : γ → β) (l : List γ) : (l.zipIdx.map fun p => g p.1) = l.map g :=
    (List.map_map ..).symm.trans (congrArg (List.map g) (List.zipIdx_map_fst 0 l))
  have hbuilt (buckets : List (String × List Member)) :
      ((buckets.zipIdx.map fun p => AlertGroup.build p.2 p.1).map f) =
        buckets.map fun bucket => f (.build 0 bucket) := by
    rw [List.map_map]
    refine (List.map_congr_left fun p _ => ?_).trans
      (hfst (fun bucket => f (.build 0 bucket)) buckets)
    exact hf (.build 0 p.1) p.2
  unfold groupAlerts
  dsimp only
  rw [List.map_map, ← hbuilt]
  refine (List.Perm.of_eq ?_).trans ((List.perm_insertionSort (Rising AlertGroup.rank) _).map f)
  refine (List.map_congr_left fun p _ => ?_).trans (hfst f _)
  exact hf p.1 p.2

theorem rank_groupAlerts (order : IterationOrder String) (alerts : List AlertRecord) :
    (groupAlerts order alerts).Pairwise (Rising AlertGroup.rank) ∧
      (groupAlerts order alerts).map AlertGroup.id =
        List.range (groupAlerts order alerts).length := by
  unfold groupAlerts
  dsimp only
  generalize hsorted : List.insertionSort (Rising AlertGroup.rank) _ = sorted
  have hpairwise : sorted.Pairwise (Rising AlertGroup.rank) := hsorted ▸ pairwise_sorted _ _
  constructor
  · rw [List.pairwise_map]
    rw [← List.zipIdx_map_fst 0 sorted, List.pairwise_map] at hpairwise
    exact hpairwise
  · rw [List.map_map, List.length_map, List.length_zipIdx]
    exact (List.zipIdx_map_snd 0 sorted).trans (List.range_eq_range' ..).symm

/-- What is said of a group apart from its number is said of one bucket. -/
theorem exists_bucket {order : IterationOrder String} {alerts : List AlertRecord} {g : AlertGroup}
    (hg : g ∈ groupAlerts order alerts) : ∃ bucket ∈ groups order (fingerprinted alerts),
      { g with id := 0 } = AlertGroup.build 0 bucket := by
  have hperm := groupAlerts_perm (f := fun g => ({ g with id := 0 } : AlertGroup))
    (fun _ _ => rfl) order alerts
  obtain ⟨bucket, hbucket, heq⟩ :=
    List.mem_map.mp (hperm.mem_iff.mp (List.mem_map_of_mem hg))
  exact ⟨bucket, hbucket, heq.symm⟩

theorem mem_inTextOrder {members : List Member} {member : Member} :
    member ∈ inTextOrder members ↔ member ∈ members := List.mem_insertionSort _

theorem AlertGroup.ends_build {bucket : String × List Member} {member : Member}
    (h : member ∈ bucket.2) : (AlertGroup.build 0 bucket).firstSeen ≤ member.1.timestamp ∧
      member.1.timestamp ≤ (AlertGroup.build 0 bucket).lastSeen := by
  have hmem := mem_inTextOrder.mpr h
  obtain ⟨first, hfirst⟩ := Option.ne_none_iff_exists'.mp
    (mt List.head?_eq_none_iff.mp (List.ne_nil_of_mem hmem))
  obtain ⟨last, hlast⟩ := Option.ne_none_iff_exists'.mp
    (mt List.getLast?_eq_none_iff.mp (List.ne_nil_of_mem hmem))
  have hends := ends_of_mem (pairwise_sorted _ _) hmem hfirst hlast
  simpa [AlertGroup.build, List.head?_map, List.getLast?_map, hfirst, hlast] using hends

end Wardex.Alerts
