import Mathlib.Algebra.Order.Ring.Abs
import Mathlib.Data.Fin.VecNotation
import Mathlib.Analysis.Real.Sqrt
import Wardex.Lib.BoundedQueue
import Wardex.Lib.WeightedMean
import Wardex.Runtime.Detector

/-! Detectors that keep a window of the last samples: one for sudden changes of an axis, one for
attacks that are slow, and one for the spread of the values; and the thread that watches the host
with them.  Square roots and logarithms are parameters. -/

namespace Wardex.Runtime

open Wardex.Lib

/-! ## Velocity -/

section

variable {K : Type*} [Field K] [LinearOrder K]

structure VelocityReport (K : Type*) where
  anomalousAxes : List String
  maxVelocity : K
  maxAcceleration : K
  scoreBoost : K

structure VelocityDetector (K : Type*) where
  history : List (Fin 9 → K)
  windowCap : ℕ
  velocitySigma : K

def sampleToArray (s : TelemetrySample) : Fin 9 → K :=
  ![(s.cpuLoadPct : K), s.memoryLoadPct, s.temperatureC, s.networkKbps, (s.authFailures : K),
    s.batteryPct, s.integrityDrift, (s.processCount : K), s.diskPressurePct]

def axisNames : Fin 9 → String :=
  !["cpu_load_pct", "memory_load_pct", "temperature_c", "network_kbps", "auth_failures",
    "battery_pct", "integrity_drift", "process_count", "disk_pressure_pct"]

/-- What the loop over the window keeps of one axis. -/
structure Velocities (K : Type*) where
  count : ℕ
  sum : K
  sumSq : K
  last : K
  previous : Option K

def Velocities.start : Velocities K where
  count := 0
  sum := 0
  sumSq := 0
  last := 0
  previous := none

def Velocities.add (v : Velocities K) (velocity : K) : Velocities K where
  count := v.count + 1
  sum := v.sum + velocity
  sumSq := v.sumSq + velocity * velocity
  last := velocity
  previous := some v.last

def velocities (history : List (Fin 9 → K)) (dim : Fin 9) : List K :=
  (history.zip history.tail).map fun p => p.2 dim - p.1 dim

namespace VelocityReport

def quiet : VelocityReport K where
  anomalousAxes := []
  maxVelocity := 0
  maxAcceleration := 0
  scoreBoost := 0

variable (sqrt : K → K) (sigma : K)

def zScore (v : Velocities K) : K :=
  let mean := v.sum / v.count
  let var := max (v.sumSq / v.count - mean * mean) 0
  let std := max (sqrt var) (1 / 1000)
  |v.last - mean| / std

/-- The report, with one more axis looked at. -/
def observe (dim : Fin 9) (v : Velocities K) (report : VelocityReport K) : VelocityReport K :=
  if v.count = 0 then report
  else
    let report := { report with
      maxVelocity := if |v.last| > report.maxVelocity then |v.last| else report.maxVelocity
      maxAcceleration :=
        match v.previous with
        | none => report.maxAcceleration
        | some previous =>
          if |v.last - previous| > report.maxAcceleration then |v.last - previous|
          else report.maxAcceleration }
    if zScore sqrt v > sigma ∧ |v.last| > 5 / 10 then
      { report with
        anomalousAxes := report.anomalousAxes ++ [axisNames dim]
        scoreBoost := report.scoreBoost + (zScore sqrt v - sigma) / 10 }
    else report

end VelocityReport

namespace VelocityDetector

def new (windowCap : ℕ) (velocitySigma : K) : VelocityDetector K where
  history := []
  windowCap := windowCap
  velocitySigma := velocitySigma

def update (sqrt : K → K) (d : VelocityDetector K) (sample : TelemetrySample) :
    VelocityReport K × VelocityDetector K :=
  let history := roll d.windowCap d.history (sampleToArray sample)
  let report := (List.finRange 9).foldl (fun report dim =>
    VelocityReport.observe sqrt d.velocitySigma dim
      ((velocities history dim).foldl Velocities.add .start) report) .quiet
  (if history.length < 3 then .quiet
    else { report with scoreBoost := min report.scoreBoost (25 / 10) },
    { d with history })

def windowLen (d : VelocityDetector K) : ℕ := d.history.length

end VelocityDetector

/-! ### When an axis is reported -/

omit [LinearOrder K] in
theorem foldl_velocities (vs : List K) (x : K) :
    ((vs ++ [x]).foldl Velocities.add .start).count = vs.length + 1 ∧
      ((vs ++ [x]).foldl Velocities.add .start).sum = (vs ++ [x]).sum ∧
      ((vs ++ [x]).foldl Velocities.add .start).sumSq = ((vs ++ [x]).map (· ^ 2)).sum ∧
      ((vs ++ [x]).foldl Velocities.add .start).last = x := by
  have hall : ∀ ws : List K, (ws.foldl Velocities.add .start).count = ws.length ∧
      (ws.foldl Velocities.add .start).sum = ws.sum ∧
      (ws.foldl Velocities.add .start).sumSq = (ws.map (· ^ 2)).sum := by
    intro ws
    induction ws using List.reverseRecOn with
    | nil => exact ⟨rfl, rfl, rfl⟩
    | append_singleton ws w ih =>
      obtain ⟨hcount, hsum, hsumSq⟩ := ih
      simp only [List.foldl_concat, Velocities.add, hcount, hsum, hsumSq, List.length_append,
        List.length_singleton, List.sum_append, List.sum_singleton, List.map_append,
        List.map_singleton, sq, and_self]
  obtain ⟨hcount, hsum, hsumSq⟩ := hall (vs ++ [x])
  refine ⟨by simpa using hcount, hsum, hsumSq, ?_⟩
  rw [List.foldl_concat]
  rfl

/-- The score of the last change, in terms of the mean and the spread of all of them. -/
theorem zScore_eq (sqrt : K → K) (vs : List K) (x : K) :
    VelocityReport.zScore sqrt ((vs ++ [x]).foldl Velocities.add .start) =
      |x - mean (vs ++ [x])| / max (sqrt (max (variance (vs ++ [x])) 0)) (1 / 1000) := by
  obtain ⟨hcount, hsum, hsumSq, hlast⟩ := foldl_velocities vs x
  have hlength : (vs ++ [x]).length = vs.length + 1 := by simp
  unfold VelocityReport.zScore
  rw [hcount, hsum, hsumSq, hlast, ← hlength, variance, sq]
  rfl

variable [IsStrictOrderedRing K] {sqrt : K → K}
  (hsqrt : ∀ x, 0 ≤ x → 0 ≤ sqrt x ∧ sqrt x * sqrt x = x)

include hsqrt in
/-- No change can stand out from a few others. -/
theorem sq_lt_of_lt_zScore {sigma : K} (hsigma : 0 ≤ sigma) {vs : List K} {x : K}
    (h : sigma < VelocityReport.zScore sqrt ((vs ++ [x]).foldl Velocities.add .start)) :
    sigma ^ 2 < vs.length := by
  rw [zScore_eq] at h
  have hbound := sq_sub_mean_le vs x
  generalize mean (vs ++ [x]) = m at *
  generalize variance (vs ++ [x]) = v at *
  obtain ⟨hnonneg, hsq⟩ := hsqrt (max v 0) (le_max_right v 0)
  have hstd : 0 < max (sqrt (max v 0)) (1 / 1000 : K) := lt_max_of_lt_right (by norm_num)
  have hdev : sigma * sqrt (max v 0) < |x - m| :=
    (mul_le_mul_of_nonneg_left (le_max_left _ _) hsigma).trans_lt ((lt_div_iff₀ hstd).mp h)
  have hdevsq : sigma ^ 2 * v < (x - m) ^ 2 := by
    calc sigma ^ 2 * v ≤ sigma ^ 2 * max v 0 :=
          mul_le_mul_of_nonneg_left (le_max_left v 0) (sq_nonneg sigma)
      _ = (sigma * sqrt (max v 0)) ^ 2 := by rw [mul_pow, sq (sqrt _), hsq]
      _ < |x - m| ^ 2 := pow_lt_pow_left₀ hdev (mul_nonneg hsigma hnonneg) two_ne_zero
      _ = (x - m) ^ 2 := sq_abs _
  have hlt : sigma ^ 2 * v < vs.length * v := hdevsq.trans_le hbound
  refine lt_of_mul_lt_mul_right hlt ?_
  -- a spread that is not positive leaves no room for a deviation
  by_contra hneg
  have hzero : (vs.length : K) * v ≤ 0 :=
    mul_nonpos_of_nonneg_of_nonpos (Nat.cast_nonneg _) (not_le.mp hneg).le
  have hmax : max v 0 = 0 := max_eq_right (not_le.mp hneg).le
  rw [hmax] at hsq hdev
  have hroot : sqrt 0 = 0 := mul_self_eq_zero.mp hsq
  rw [hroot, mul_zero] at hdev
  have hpos : 0 < (x - m) ^ 2 := by
    rw [← sq_abs]
    exact pow_pos hdev 2
  linarith

/-- The last change stands out, and is no trifle. -/
def Velocities.Flagged (sqrt : K → K) (sigma : K) (v : Velocities K) : Prop :=
  v.count ≠ 0 ∧ VelocityReport.zScore sqrt v > sigma ∧ |v.last| > 5 / 10

omit [IsStrictOrderedRing K] in
theorem mem_observe (sqrt : K → K) (sigma : K) (dim : Fin 9) (v : Velocities K)
    (report : VelocityReport K) (name : String) :
    name ∈ (VelocityReport.observe sqrt sigma dim v report).anomalousAxes ↔
      name ∈ report.anomalousAxes ∨ v.Flagged sqrt sigma ∧ axisNames dim = name := by
  unfold VelocityReport.observe Velocities.Flagged
  by_cases hcount : v.count = 0
  · simp [hcount]
  · by_cases hflag : VelocityReport.zScore sqrt v > sigma ∧ |v.last| > 5 / 10
    · simp only [if_neg hcount, if_pos hflag, List.mem_append, List.mem_singleton]
      refine or_congr_right ?_
      rw [eq_comm]
      exact (and_iff_right ⟨hcount, hflag⟩).symm
    · simp only [if_neg hcount, if_neg hflag]
      exact (or_iff_left fun h => hflag h.1.2).symm

omit [IsStrictOrderedRing K] in
theorem mem_foldl_observe (sqrt : K → K) (sigma : K) (v : Fin 9 → Velocities K)
    (dims : List (Fin 9)) (report : VelocityReport K) (name : String) :
    name ∈ (dims.foldl (fun report dim => VelocityReport.observe sqrt sigma dim (v dim) report)
      report).anomalousAxes ↔ name ∈ report.anomalousAxes ∨
        ∃ dim ∈ dims, (v dim).Flagged sqrt sigma ∧ axisNames dim = name := by
  induction dims generalizing report with
  | nil => simp
  | cons dim dims ih =>
    rw [List.foldl_cons, ih, mem_observe, or_assoc]
    simp only [List.mem_cons, or_and_right, exists_or, exists_eq_left]

namespace VelocityDetector

omit [IsStrictOrderedRing K] in
theorem history_run (sqrt : K → K) (cap : ℕ) (sigma : K) (samples : List TelemetrySample) :
    (run (fun d sample => (d.update sqrt sample).2) (new cap sigma) samples).history =
        (samples.map sampleToArray).rtake (max cap 1) ∧
      (run (fun d sample => (d.update sqrt sample).2) (new cap sigma) samples).windowCap = cap ∧
      (run (fun d sample => (d.update sqrt sample).2) (new cap sigma) samples).velocitySigma =
        sigma := by
  induction samples using List.reverseRecOn with
  | nil => exact ⟨by simp [new, List.rtake], rfl, rfl⟩
  | append_singleton samples sample ih =>
    obtain ⟨hhistory, hcap, hsigma⟩ := ih
    rw [run_append]
    refine ⟨?_, hcap, hsigma⟩
    have hroll := roll_rtake cap (samples.map (sampleToArray (K := K))) (sampleToArray sample)
    rw [← hhistory] at hroll
    rw [List.map_append, List.map_singleton, ← hroll]
    exact congrArg (fun cap => roll cap _ _) hcap

omit [IsStrictOrderedRing K] in
theorem mem_update (sqrt : K → K) (d : VelocityDetector K) (sample : TelemetrySample)
    (name : String) : name ∈ (d.update sqrt sample).1.anomalousAxes ↔
      3 ≤ (d.update sqrt sample).2.windowLen ∧ ∃ dim, ((velocities (d.update sqrt sample).2.history
        dim).foldl Velocities.add .start).Flagged sqrt d.velocitySigma ∧ axisNames dim = name := by
  have hfold := mem_foldl_observe sqrt d.velocitySigma (fun dim =>
    (velocities (d.update sqrt sample).2.history dim).foldl Velocities.add .start)
    (List.finRange 9) .quiet name
  simp only [VelocityReport.quiet, List.not_mem_nil, false_or, List.mem_finRange, true_and] at hfold
  rw [← hfold]
  by_cases hshort : (d.update sqrt sample).2.history.length < 3
  · have hreport : (d.update sqrt sample).1 = .quiet := if_pos hshort
    rw [hreport]
    refine iff_of_false List.not_mem_nil fun h => ?_
    exact absurd h.1 (not_le.mpr hshort)
  · have hlong : 3 ≤ (d.update sqrt sample).2.windowLen := not_lt.mp hshort
    have hreport : (d.update sqrt sample).1 = _ := if_neg hshort
    rw [and_iff_right hlong, hreport]
    rfl

omit [LinearOrder K] [IsStrictOrderedRing K] in
theorem exists_velocities {history : List (Fin 9 → K)} (h : 3 ≤ history.length) (dim : Fin 9) :
    ∃ vs x, velocities history dim = vs ++ [x] ∧ vs.length + 2 = history.length := by
  have hlength : (velocities history dim).length + 1 = history.length := by
    simp only [velocities, List.length_map, List.length_zip, List.length_tail]
    omega
  obtain hnil | ⟨vs, x, hvs⟩ := (velocities history dim).eq_nil_or_concat'
  · rw [hnil, List.length_nil] at hlength
    omega
  · refine ⟨vs, x, hvs, ?_⟩
    rw [hvs, List.length_append, List.length_singleton] at hlength
    omega

include hsqrt in
/-- A change after many equal samples stands out by the root of their number. -/
theorem lt_zScore_of_sq_lt {sigma : K} {m : ℕ} (hm : 1 ≤ m)
    (h : sigma ^ 2 < m) : sigma < VelocityReport.zScore sqrt
      ((List.replicate m 0 ++ [(m + 1 : K)]).foldl Velocities.add .start) := by
  have hmK : (1 : K) ≤ m := Nat.one_le_cast.mpr hm
  have hpos : (m + 1 : K) ≠ 0 := by positivity
  have hmean : mean (List.replicate m 0 ++ [(m + 1 : K)]) = 1 := by
    simp [mean, hpos]
  have hvariance : variance (List.replicate m 0 ++ [(m + 1 : K)]) = (m : K) := by
    rw [variance, hmean]
    simp only [List.map_append, List.map_replicate, List.map_singleton, List.sum_append,
      List.sum_replicate, List.sum_singleton, List.length_append, List.length_replicate,
      List.length_singleton, Nat.cast_add, Nat.cast_one, zero_pow two_ne_zero, smul_zero, zero_add]
    field_simp
    ring
  obtain ⟨hnonneg, hsq⟩ := hsqrt m (Nat.cast_nonneg m)
  have hroot : sigma < sqrt m := by
    refine lt_of_pow_lt_pow_left₀ 2 hnonneg ?_
    rwa [sq (sqrt _), hsq]
  have hone : 1 ≤ sqrt m := by
    refine le_of_pow_le_pow_left₀ two_ne_zero hnonneg ?_
    rwa [sq (sqrt _), hsq, one_pow]
  have hlarge : (1 / 1000 : K) ≤ sqrt m := le_trans (by norm_num) hone
  rw [zScore_eq, hmean, hvariance, max_eq_left (Nat.cast_nonneg m), max_eq_left hlarge,
    add_sub_cancel_right, abs_of_nonneg (Nat.cast_nonneg m), lt_div_iff₀ (one_pos.trans_le hone)]
  nth_rewrite 2 [← hsq]
  exact mul_lt_mul_of_pos_right hroot (one_pos.trans_le hone)

/-- Two samples that differ in the traffic only. -/
def still : TelemetrySample := ⟨0, 0, 0, 0, 0, 0, 0, 0, 0, 0⟩

def surge (networkKbps : ℚ) : TelemetrySample := { still with networkKbps }

omit [LinearOrder K] [IsStrictOrderedRing K] in
theorem velocities_surge (m : ℕ) (x : ℚ) :
    velocities (List.replicate (m + 1) (sampleToArray still : Fin 9 → K) ++
      [sampleToArray (surge x)]) 3 = List.replicate m 0 ++ [(x : K)] := by
  unfold velocities
  induction m with
  | zero =>
    simp [sampleToArray, still, surge]
  | succ m ih =>
    rw [List.replicate_succ, List.cons_append, List.tail_cons]
    rw [List.replicate_succ, List.cons_append, List.tail_cons] at ih
    rw [List.replicate_succ, List.cons_append, List.zip_cons_cons, List.map_cons, ih, sub_self,
      List.replicate_succ, List.cons_append]

include hsqrt in
/-- Only in a window of more than `sigma ^ 2 + 2` samples can a change be told from the spread that
it causes. -/
theorem window_of_anomalous {sigma : K} (hsigma : 0 ≤ sigma) {d : VelocityDetector K}
    (hd : d.velocitySigma = sigma) {sample : TelemetrySample}
    (h : (d.update sqrt sample).1.anomalousAxes ≠ []) :
    sigma ^ 2 + 2 < (d.update sqrt sample).2.windowLen := by
  obtain ⟨name, hname⟩ := List.exists_mem_of_ne_nil _ h
  obtain ⟨hlong, dim, ⟨-, hscore, -⟩, -⟩ := (mem_update sqrt d sample name).mp hname
  obtain ⟨vs, x, hvs, hlength⟩ := exists_velocities hlong dim
  rw [hvs, hd] at hscore
  have hlt := sq_lt_of_lt_zScore hsqrt hsigma hscore
  rw [windowLen, ← hlength]
  push_cast
  linarith

end VelocityDetector

end

/-! ## Slow attacks -/

structure SlowAttackConfig where
  shortWindow : ℕ
  longWindow : ℕ
  authCumulativeThreshold : ℕ
  authRateThreshold : ℚ
  networkCumulativeThreshold : ℚ
  alertThreshold : ℚ

def SlowAttackConfig.default : SlowAttackConfig where
  shortWindow := 60
  longWindow := 1440
  authCumulativeThreshold := 100
  authRateThreshold := 1 / 2
  networkCumulativeThreshold := 500000
  alertThreshold := 3

structure SlowAttackReport where
  score : ℚ
  alert : Bool
  cumulativeAuthFailures : ℕ
  authFailureRate : ℚ
  cumulativeNetworkKb : ℚ
  samplesObserved : ℕ
  patterns : List String
  mitreTechniques : List String

structure SlowAttackDetector where
  config : SlowAttackConfig
  shortAuth : List ℕ
  longAuth : List ℕ
  longNetwork : List ℚ
  totalSamples : ℕ

/-- How far a sum is over its threshold, up to a cap; over nothing it is infinitely far. -/
def cappedRatio (x threshold cap : ℚ) : ℚ := if threshold = 0 then cap else min (x / threshold) cap

namespace SlowAttackDetector

def new (config : SlowAttackConfig) : SlowAttackDetector where
  config := config
  shortAuth := []
  longAuth := []
  longNetwork := []
  totalSamples := 0

def observe (d : SlowAttackDetector) (sample : TelemetrySample) : SlowAttackDetector :=
  { d with
    totalSamples := d.totalSamples + 1
    shortAuth := roll d.config.shortWindow d.shortAuth sample.authFailures
    longAuth := roll d.config.longWindow d.longAuth sample.authFailures
    longNetwork := roll d.config.longWindow d.longNetwork sample.networkKbps }

/-- The sum of the short window is a `u32`. -/
def authRate (d : SlowAttackDetector) : ℚ :=
  if d.shortAuth = [] then 0 else (d.shortAuth.sum % 2 ^ 32 : ℕ) / d.shortAuth.length

def authScore (d : SlowAttackDetector) : ℚ :=
  if d.longAuth.sum ≥ d.config.authCumulativeThreshold then
    cappedRatio d.longAuth.sum d.config.authCumulativeThreshold 3 * (3 / 2) else 0

def rateScore (d : SlowAttackDetector) : ℚ :=
  if d.authRate ≥ d.config.authRateThreshold ∧ d.shortAuth.length ≥ 10 then
    cappedRatio d.authRate d.config.authRateThreshold 2 else 0

def networkScore (d : SlowAttackDetector) : ℚ :=
  if d.longNetwork.sum ≥ d.config.networkCumulativeThreshold then
    cappedRatio d.longNetwork.sum d.config.networkCumulativeThreshold 2 else 0

/-- A number is shown in full by `display`. -/
def evaluate (fixed : ℕ → ℚ → String) (display : ℚ → String) (d : SlowAttackDetector) :
    SlowAttackReport :=
  let score := min (d.authScore + d.rateScore + d.networkScore) 10
  let alert := decide (score ≥ d.config.alertThreshold)
  { score
    alert
    cumulativeAuthFailures := d.longAuth.sum
    authFailureRate := d.authRate
    cumulativeNetworkKb := d.longNetwork.sum
    samplesObserved := d.totalSamples
    patterns :=
      (if d.longAuth.sum ≥ d.config.authCumulativeThreshold then
        [s!"cumulative_auth_failures:{d.longAuth.sum} " ++
          s!"(threshold:{d.config.authCumulativeThreshold})"] else []) ++
      (if d.authRate ≥ d.config.authRateThreshold ∧ d.shortAuth.length ≥ 10 then
        ["sustained_auth_rate:" ++ fixed 2 d.authRate ++ "/sample"] else []) ++
      (if d.longNetwork.sum ≥ d.config.networkCumulativeThreshold then
        ["cumulative_network_kb:" ++ fixed 0 d.longNetwork.sum ++ " (threshold:" ++
          display d.config.networkCumulativeThreshold ++ ")"] else [])
    mitreTechniques :=
      if alert then
        (if d.longAuth.sum ≥ d.config.authCumulativeThreshold then ["T1110", "T1110.001"]
          else []) ++
        (if d.longNetwork.sum ≥ d.config.networkCumulativeThreshold then ["T1048", "T1030"] else [])
      else [] }

variable (samples : List TelemetrySample)

/-- The windows are the last samples. -/
theorem run_observe (config : SlowAttackConfig) :
    run observe (new config) samples =
      { config
        shortAuth := (samples.map (·.authFailures)).rtake (max config.shortWindow 1)
        longAuth := (samples.map (·.authFailures)).rtake (max config.longWindow 1)
        longNetwork := (samples.map (·.networkKbps)).rtake (max config.longWindow 1)
        totalSamples := samples.length } := by
  induction samples using List.reverseRecOn with
  | nil => simp [new, List.rtake]
  | append_singleton samples sample ih =>
    rw [run_append, ih]
    simp only [run_cons, run_nil, observe, roll_rtake, List.map_append, List.map_singleton,
      List.length_append, List.length_singleton]

theorem sum_rtake_le {m n : ℕ} (h : m ≤ n) (counts : List ℕ) :
    (counts.rtake m).sum ≤ (counts.rtake n).sum := by
  rw [← rtake_rtake h]
  exact (rtake_suffix m _).sublist.sum_le_sum fun _ _ => Nat.zero_le _

theorem one_le_cappedRatio {x threshold cap : ℚ} (hthreshold : 0 < threshold) (hcap : 1 ≤ cap)
    (h : threshold ≤ x) : 1 ≤ cappedRatio x threshold cap := by
  rw [cappedRatio, if_neg hthreshold.ne']
  exact le_min ((one_le_div hthreshold).mpr h) hcap

theorem cappedRatio_le (x threshold cap : ℚ) : cappedRatio x threshold cap ≤ cap := by
  unfold cappedRatio
  split_ifs
  · exact le_rfl
  · exact min_le_right _ _

theorem rateScore_bounds {d : SlowAttackDetector} (hd : 0 < d.config.authRateThreshold) :
    0 ≤ d.rateScore ∧ d.rateScore ≤ 2 ∧ (d.rateScore ≠ 0 →
      d.config.authRateThreshold ≤ d.authRate ∧ 10 ≤ d.shortAuth.length) := by
  unfold rateScore
  split_ifs with h
  · have hone := one_le_cappedRatio hd one_le_two h.1
    exact ⟨by linarith, cappedRatio_le _ _ _, fun _ => h⟩
  · exact ⟨le_rfl, zero_le_two, fun hne => absurd rfl hne⟩

theorem networkScore_bounds {d : SlowAttackDetector}
    (hd : 0 < d.config.networkCumulativeThreshold) :
    0 ≤ d.networkScore ∧ d.networkScore ≤ 2 ∧ (d.networkScore ≠ 0 →
      d.config.networkCumulativeThreshold ≤ d.longNetwork.sum) := by
  unfold networkScore
  split_ifs with h
  · have hone := one_le_cappedRatio hd one_le_two h
    exact ⟨by linarith, cappedRatio_le _ _ _, fun _ => h⟩
  · exact ⟨le_rfl, zero_le_two, fun hne => absurd rfl hne⟩

/-- What raises the alert is failed logins.  A stream without any never does, whatever it sends;
two hundred among the last samples always do, and an alert names a technique. -/
theorem alert_default (fixed : ℕ → ℚ → String) (display : ℚ → String) :
    (((run observe (new .default) samples).evaluate fixed display).alert = true →
      5 ≤ ((samples.map (·.authFailures)).rtake 1440).sum ∧
        ((run observe (new .default) samples).evaluate fixed display).mitreTechniques ≠ []) ∧
    (200 ≤ ((samples.map (·.authFailures)).rtake 1440).sum →
      ((run observe (new .default) samples).evaluate fixed display).alert = true ∧ "T1110" ∈
        ((run observe (new .default) samples).evaluate fixed display).mitreTechniques) := by
  have hrun := run_observe samples .default
  generalize run observe (new .default) samples = d at *
  have hwindow : max SlowAttackConfig.default.longWindow 1 = 1440 := by decide
  have hwindows : max SlowAttackConfig.default.shortWindow 1 ≤ 1440 := by decide
  rw [hwindow] at hrun
  have hlong : d.longAuth = (samples.map (·.authFailures)).rtake 1440 := by rw [hrun]
  have hshort : d.shortAuth.sum ≤ d.longAuth.sum := by
    simp only [hrun]
    exact sum_rtake_le hwindows _
  have hconfig : d.config = .default := by rw [hrun]
  obtain ⟨hrate0, hrate2, hrate⟩ := rateScore_bounds (d := d)
    (by rw [hconfig]; norm_num [SlowAttackConfig.default])
  obtain ⟨hnet0, hnet2, hnet⟩ := networkScore_bounds (d := d)
    (by rw [hconfig]; norm_num [SlowAttackConfig.default])
  have halert : (d.evaluate fixed display).alert = true ↔
      3 ≤ min (d.authScore + d.rateScore + d.networkScore) 10 := by
    change decide (_ ≥ d.config.alertThreshold) = true ↔ _
    rw [hconfig, decide_eq_true_iff]
    rfl
  have hmitre : (d.evaluate fixed display).alert = true →
      (d.evaluate fixed display).mitreTechniques =
        (if d.longAuth.sum ≥ 100 then ["T1110", "T1110.001"] else []) ++
        (if d.longNetwork.sum ≥ 500000 then ["T1048", "T1030"] else []) := by
    intro h
    refine (if_pos h).trans ?_
    rw [hconfig]
    rfl
  have hauth : d.authScore = if d.longAuth.sum ≥ 100 then
      min ((d.longAuth.sum : ℚ) / 100) 3 * (3 / 2) else 0 := by
    unfold authScore cappedRatio
    rw [hconfig]
    simp [SlowAttackConfig.default]
  have hsustained : d.rateScore ≠ 0 → 5 ≤ d.longAuth.sum := by
    intro hne
    obtain ⟨hhalf, hten⟩ := hrate hne
    have hten' : (10 : ℚ) ≤ d.shortAuth.length := by exact_mod_cast hten
    have hne' : d.shortAuth ≠ [] := List.ne_nil_of_length_pos (by omega)
    rw [hconfig, authRate, if_neg hne', le_div_iff₀ (by linarith)] at hhalf
    have hfive : (5 : ℚ) ≤ (d.shortAuth.sum % 2 ^ 32 : ℕ) := by
      refine le_trans ?_ hhalf
      change (5 : ℚ) ≤ 1 / 2 * _
      linarith
    have hmod : d.shortAuth.sum % 2 ^ 32 ≤ d.shortAuth.sum := Nat.mod_le _ _
    have hfive' : 5 ≤ d.shortAuth.sum % 2 ^ 32 := by exact_mod_cast hfive
    omega
  rw [← hlong]
  constructor
  · intro h
    rw [hmitre h]
    have hscore : 3 ≤ d.authScore + d.rateScore + d.networkScore :=
      (halert.mp h).trans (min_le_left _ _)
    by_cases hmany : d.longAuth.sum ≥ 100
    · rw [if_pos hmany]
      exact ⟨by omega, by simp⟩
    · -- both other scores are needed then, and neither is zero
      rw [hauth, if_neg hmany] at hscore
      have hrate' : d.rateScore ≠ 0 := by
        intro hzero
        linarith
      have hnet' : d.networkScore ≠ 0 := by
        intro hzero
        linarith
      have hsent := hnet hnet'
      rw [hconfig] at hsent
      rw [if_pos (show d.longNetwork.sum ≥ 500000 from hsent)]
      exact ⟨hsustained hrate', by simp⟩
  · intro h
    have hmany : d.longAuth.sum ≥ 100 := by omega
    have htwo : (2 : ℚ) ≤ d.longAuth.sum / 100 := by
      rw [le_div_iff₀ (by norm_num)]
      exact_mod_cast h
    have hthree : 3 ≤ d.authScore := by
      rw [hauth, if_pos hmany]
      have hmin : (2 : ℚ) ≤ min ((d.longAuth.sum : ℚ) / 100) 3 := le_min htwo (by norm_num)
      linarith
    have halerted := halert.mpr (le_min (by linarith) (by norm_num))
    rw [hmitre halerted, if_pos hmany]
    exact ⟨halerted, by simp⟩

end SlowAttackDetector

/-! ## Entropy -/

structure EntropyReport (K : Type*) where
  entropies : List (String × K)
  anomalousAxes : List String
  scoreBoost : K

structure EntropyDetector (K : Type*) where
  window : List (Fin 9 → K)
  windowCap : ℕ
  bins : ℕ

section

variable {K : Type*} [Field K] [LinearOrder K] [FloorRing K]

def lowEntropyAxisIsMeaningful (dim : Fin 9) (mean : K) : Bool :=
  match axisNames dim with
  | "cpu_load_pct" => mean ≥ 70
  | "memory_load_pct" => mean ≥ 85
  | "temperature_c" => mean ≥ 70
  | "network_kbps" => mean ≥ 5000
  | "auth_failures" => mean ≥ 8
  | _ => false

namespace EntropyDetector

def new (windowCap bins : ℕ) : EntropyDetector K := ⟨[], windowCap, max bins 4⟩

/-- How many values fall into each of the bins between the least and the greatest. -/
def histogram (bins : ℕ) (values : List K) : List ℕ :=
  let minV := values.foldl min (values.headD 0)
  let maxV := values.foldl max (values.headD 0)
  let range := max (maxV - minV) (1 / 1000)
  (List.range bins).map fun bin =>
    values.countP fun v => min ⌊(v - minV) / range * ((bins : K) - 1)⌋₊ (bins - 1) = bin

/-- The entropy of a histogram over `n` values. -/
def shannon (log2 : K → K) (n : K) (hist : List ℕ) : K :=
  hist.foldl (fun h (count : ℕ) =>
    if count > 0 then h - (count : K) / n * log2 ((count : K) / n) else h) 0

/-- The report, with one more axis looked at. -/
def observe (log2 : K → K) (bins : ℕ) (window : List (Fin 9 → K)) (report : EntropyReport K)
    (dim : Fin 9) : EntropyReport K :=
  let values := window.map fun sample => sample dim
  let n : K := values.length
  let h := shannon log2 n (histogram bins values)
  let maxEntropy := log2 bins
  let low : Bool := h < maxEntropy * (1 / 10) ∧ n ≥ 10 ∧
    lowEntropyAxisIsMeaningful dim (values.sum / n)
  let high : Bool := h > maxEntropy * (9 / 10) ∧ dim = 4 ∧ n ≥ 10
  { entropies := report.entropies ++ [(axisNames dim, h)]
    anomalousAxes := report.anomalousAxes ++
      (if low then [axisNames dim ++ ":low_entropy"] else []) ++
      if high then [axisNames dim ++ ":high_entropy"] else []
    scoreBoost := report.scoreBoost + (if low then 1 / 4 else 0) + if high then 6 / 10 else 0 }

def update (log2 : K → K) (d : EntropyDetector K) (sample : TelemetrySample) :
    EntropyReport K × EntropyDetector K :=
  let window := roll d.windowCap d.window (sampleToArray sample)
  let report := (List.finRange 9).foldl (observe log2 d.bins window) ⟨[], [], 0⟩
  (if window.length < 5 then ⟨[], [], 0⟩
    else { report with scoreBoost := min report.scoreBoost (20 / 10) }, { d with window })

end EntropyDetector

end

/-! ## The monitor of the host -/

/-- The scores from which on the policy names a level. -/
structure PolicyThresholds (K : Type*) where
  criticalScore : K
  severeScore : K
  elevatedScore : K

/-- A signal after the other detectors have had their say. -/
structure HostSignal (K : Type*) where
  sample : TelemetrySample
  thresholds : PolicyThresholds K
  score : K
  confidence : ℚ
  reasons : List String

structure HostAlert (K : Type*) where
  score : K
  confidence : ℚ
  level : String
  action : String
  reasons : List String
  sample : TelemetrySample
  enforced : Bool

structure HostDetectors (K : Type*) where
  detector : AnomalyDetector
  velocity : VelocityDetector K
  entropy : EntropyDetector K

/-- How floating-point numbers are printed and two functions computed. -/
structure HostNumbers (K : Type*) where
  fixed : ℕ → ℚ → String
  sqrt : K → K
  log2 : K → K

section

variable {K : Type*} [Field K] [LinearOrder K] [FloorRing K] (num : HostNumbers K)

/-- The default `CompoundThreatDetector`: the share of the nine axes that contribute. -/
def concurrentFraction (signal : AnomalySignal) : ℚ :=
  signal.contributions.countP (fun c => c.2 ≥ 3 / 10) / 9

def HostDetectors.inspect (d : HostDetectors K) (input : PolicyThresholds K × TelemetrySample) :
    HostSignal K × HostDetectors K :=
  let evaluated := d.detector.evaluate num.fixed input.2
  let velocity := d.velocity.update num.sqrt input.2
  let entropy := d.entropy.update num.log2 input.2
  let signal := evaluated.1
  let score : K := signal.score + (velocity.1.scoreBoost + entropy.1.scoreBoost)
  let fraction := concurrentFraction signal
  let compound : Bool := fraction ≥ 4 / 10
  ({ sample := input.2
     thresholds := input.1
     score := if compound then score * (1 + (fraction : K) * (5 / 10)) else score
     confidence := signal.confidence
     reasons := signal.reasons ++ velocity.1.anomalousAxes.map ("velocity-spike:" ++ ·) ++
       entropy.1.anomalousAxes.map ("entropy-anomaly:" ++ ·) ++
       if compound then ["compound-threat(" ++ num.fixed 0 (fraction * 100) ++ "%)"] else [] },
    ⟨evaluated.2, velocity.2, entropy.2⟩)

namespace HostSignal

def elevated (s : HostSignal K) : Bool := s.score ≥ s.thresholds.elevatedScore

def severe (s : HostSignal K) : Bool := s.score ≥ s.thresholds.severeScore

def alert (s : HostSignal K) : HostAlert K where
  score := s.score
  confidence := s.confidence
  level :=
    if s.score ≥ s.thresholds.criticalScore then "Critical"
    else if s.score ≥ s.thresholds.severeScore then "Severe" else "Elevated"
  action := "monitor"
  reasons := s.reasons
  sample := s.sample
  enforced := false

end HostSignal

structure HostMonitor (K : Type*) where
  detectors : HostDetectors K
  consecutiveElevated : ℕ
  localTelemetry : RingBuffer TelemetrySample 300
  alerts : RingBuffer (HostAlert K) 10000

def confirmSamples : ℕ := 2

namespace HostMonitor

def start (detectors : HostDetectors K) : HostMonitor K where
  detectors := detectors
  consecutiveElevated := 0
  localTelemetry := .empty TelemetrySample 300
  alerts := .empty (HostAlert K) 10000

/-- The body of the loop of the monitoring thread; the counter is a `u32`. -/
def observe (m : HostMonitor K) (input : PolicyThresholds K × TelemetrySample) : HostMonitor K :=
  let (signal, detectors) := m.detectors.inspect num input
  let consecutiveElevated := if signal.elevated then (m.consecutiveElevated + 1) % 2 ^ 32 else 0
  let confirmed : Bool := signal.severe ∨ consecutiveElevated ≥ confirmSamples
  { detectors
    consecutiveElevated
    localTelemetry := m.localTelemetry.push input.2
    alerts := if signal.elevated ∧ confirmed then m.alerts.push signal.alert else m.alerts }

/-- The signals of a run, in order. -/
def signals (detectors : HostDetectors K) (inputs : List (PolicyThresholds K × TelemetrySample)) :
    List (HostSignal K) :=
  answers (HostDetectors.inspect num) detectors inputs

/-- What the last of these signals raises: an alert at once if it is severe, and else only if it is
elevated like the one before. -/
def raised (signals : List (HostSignal K)) : Option (HostAlert K) :=
  signals.getLast?.bind fun s =>
    if s.elevated ∧ (s.severe ∨
        confirmSamples ≤ (signals.rtakeWhile HostSignal.elevated).length % 2 ^ 32) then
      some s.alert
    else none

/-- What the monitor holds after these inputs. -/
structure Holds (detectors : HostDetectors K)
    (inputs : List (PolicyThresholds K × TelemetrySample)) (m : HostMonitor K) : Prop where
  detectors_eq : m.detectors = run (next (HostDetectors.inspect num)) detectors inputs
  counter_eq : m.consecutiveElevated =
    ((signals num detectors inputs).rtakeWhile HostSignal.elevated).length % 2 ^ 32
  telemetry_eq : m.localTelemetry.items = (inputs.map Prod.snd).rtake 300
  alerts_eq : m.alerts.items = ((signals num detectors inputs).inits.filterMap raised).rtake 10000

variable {num} {detectors : HostDetectors K} {m : HostMonitor K}
  {inputs : List (PolicyThresholds K × TelemetrySample)}

omit [Field K] [FloorRing K] in
theorem raised_concat (signals : List (HostSignal K)) (s : HostSignal K) :
    raised (signals ++ [s]) = if s.elevated ∧ (s.severe ∨
        confirmSamples ≤ ((signals.rtakeWhile HostSignal.elevated).length + 1) % 2 ^ 32) then
      some s.alert else none := by
  rw [raised, List.getLast?_concat, Option.bind_some]
  cases helevated : s.elevated with
  | false => simp
  | true =>
    rw [List.rtakeWhile_concat_pos _ _ _ helevated, List.length_append, List.length_singleton]

namespace Holds

variable (h : m.Holds num detectors inputs) (input : PolicyThresholds K × TelemetrySample)

include h

theorem signals_concat : signals num detectors (inputs ++ [input]) =
    signals num detectors inputs ++ [(m.detectors.inspect num input).1] := by
  rw [signals, answers_concat, ← h.detectors_eq]
  rfl

/-- The counter is the length of the run of elevated signals that the last one ends. -/
theorem counter_observe : (m.observe num input).consecutiveElevated =
    ((signals num detectors (inputs ++ [input])).rtakeWhile HostSignal.elevated).length %
      2 ^ 32 := by
  have hif : (m.observe num input).consecutiveElevated =
      if (m.detectors.inspect num input).1.elevated then (m.consecutiveElevated + 1) % 2 ^ 32
      else 0 := rfl
  rw [hif, h.signals_concat, h.counter_eq]
  cases helevated : (m.detectors.inspect num input).1.elevated with
  | true =>
    rw [if_pos rfl, List.rtakeWhile_concat_pos _ _ _ helevated, List.length_append,
      List.length_singleton, Nat.mod_add_mod]
  | false =>
    rw [if_neg Bool.false_ne_true, List.rtakeWhile_concat_neg _ _ _ (by simp [helevated]),
      List.length_nil, Nat.zero_mod]

theorem alerts_observe : (m.observe num input).alerts =
    (raised (signals num detectors (inputs ++ [input]))).elim m.alerts m.alerts.push := by
  have hif : (m.observe num input).alerts =
      if (m.detectors.inspect num input).1.elevated ∧ ((m.detectors.inspect num input).1.severe ∨
          confirmSamples ≤ if (m.detectors.inspect num input).1.elevated then
            (m.consecutiveElevated + 1) % 2 ^ 32 else 0) then
        m.alerts.push (m.detectors.inspect num input).1.alert
      else m.alerts := by
    simp only [HostMonitor.observe, decide_eq_true_eq, ge_iff_le]
  rw [hif, h.signals_concat, raised_concat, h.counter_eq, Nat.mod_add_mod]
  cases (m.detectors.inspect num input).1.elevated with
  | false => simp
  | true =>
    simp only [true_and, if_true]
    split_ifs <;> rfl

theorem observe : (m.observe num input).Holds num detectors (inputs ++ [input]) := by
  refine ⟨?_, h.counter_observe input, ?_, ?_⟩
  · rw [run_append, ← h.detectors_eq]
    rfl
  · refine (RingBuffer.items_push _ _).trans ?_
    rw [h.telemetry_eq, rtake_snoc, List.map_append, List.map_singleton]
  · have hinits : (signals num detectors (inputs ++ [input])).inits =
        (signals num detectors inputs).inits ++ [signals num detectors (inputs ++ [input])] := by
      rw [h.signals_concat, List.inits_append]
      simp
    rw [h.alerts_observe, hinits, List.filterMap_append, List.filterMap_cons, List.filterMap_nil]
    cases hraised : raised (signals num detectors (inputs ++ [input])) with
    | none => rw [Option.elim_none, h.alerts_eq, List.append_nil]
    | some alert => rw [Option.elim_some, RingBuffer.items_push, h.alerts_eq, rtake_snoc]

end Holds

theorem holds_run (detectors : HostDetectors K)
    (inputs : List (PolicyThresholds K × TelemetrySample)) :
    (run (HostMonitor.observe num) (start detectors) inputs).Holds num detectors inputs := by
  induction inputs using List.reverseRecOn with
  | nil =>
    refine ⟨rfl, rfl, ?_, ?_⟩
    · rw [List.map_nil, List.rtake_nil]
      rfl
    · have hnone : [([] : List (HostSignal K))].filterMap raised = [] := rfl
      rw [signals, answers, List.inits, hnone, List.rtake_nil]
      rfl
  | append_singleton inputs input ih =>
    rw [run_append]
    exact ih.observe input

/-- After any run, the monitor holds the last samples, and for every sample that was severe or the
second elevated one in a row the alert it raised, in order, as far as there is room for them; no
alert depends on anything but the signals up to its own. -/
theorem alerts_run (detectors : HostDetectors K)
    (inputs : List (PolicyThresholds K × TelemetrySample)) :
    (run (HostMonitor.observe num) (start detectors) inputs).localTelemetry.items =
        (inputs.map Prod.snd).rtake 300 ∧
      (run (HostMonitor.observe num) (start detectors) inputs).alerts.items =
        ((signals num detectors inputs).inits.filterMap raised).rtake 10000 :=
  ⟨(holds_run detectors inputs).telemetry_eq, (holds_run detectors inputs).alerts_eq⟩

end HostMonitor

end

end Wardex.Runtime
