import Mathlib.Algebra.BigOperators.Ring.List
import Mathlib.Algebra.Order.BigOperators.Group.List
import Mathlib.Algebra.Order.Field.Basic
import Mathlib.Algebra.Order.Field.Rat
import Mathlib.Tactic.Linarith
import Mathlib.Tactic.Ring
import Wardex.Lib.KeyMap
import Wardex.Lib.Run

/-! The anomaly detector: telemetry is scored against a learned baseline, and each sample that does
not score too high moves the baseline.  Numbers are exact, and how they are printed is a parameter
(`fixed n x` is `{:.n}`). -/

namespace Wardex.Runtime

open Wardex.Lib

structure TelemetrySample where
  timestampMs : ℕ
  cpuLoadPct : ℚ
  memoryLoadPct : ℚ
  temperatureC : ℚ
  networkKbps : ℚ
  authFailures : ℕ
  batteryPct : ℚ
  integrityDrift : ℚ
  processCount : ℕ
  diskPressurePct : ℚ
deriving DecidableEq

def demoSamples : List TelemetrySample :=
  [⟨1000, 18, 32, 41, 500, 0, 94, 1 / 100, 42, 8⟩,
    ⟨2000, 23, 34, 42, 550, 1, 92, 2 / 100, 44, 9⟩,
    ⟨3000, 26, 36, 43, 620, 0, 90, 2 / 100, 45, 10⟩,
    ⟨4000, 64, 58, 51, 5400, 8, 63, 11 / 100, 98, 55⟩,
    ⟨5000, 81, 69, 57, 7000, 15, 47, 19 / 100, 145, 78⟩]

/-! ## The baseline -/

structure TelemetryBaseline where
  cpuLoadPct : ℚ
  memoryLoadPct : ℚ
  temperatureC : ℚ
  networkKbps : ℚ
  authFailures : ℚ
  batteryPct : ℚ
  integrityDrift : ℚ
  processCount : ℚ
  diskPressurePct : ℚ
deriving DecidableEq

structure PersistedBaseline extends TelemetryBaseline where
  observedSamples : ℕ
deriving DecidableEq

def blend (current next alpha : ℚ) : ℚ := (1 - alpha) * current + alpha * next

namespace TelemetryBaseline

def fromSample (sample : TelemetrySample) : TelemetryBaseline where
  cpuLoadPct := sample.cpuLoadPct
  memoryLoadPct := sample.memoryLoadPct
  temperatureC := sample.temperatureC
  networkKbps := sample.networkKbps
  authFailures := sample.authFailures
  batteryPct := sample.batteryPct
  integrityDrift := sample.integrityDrift
  processCount := sample.processCount
  diskPressurePct := sample.diskPressurePct

/-- Every component is moved towards the same one of the target. -/
def blended (b target : TelemetryBaseline) (alpha : ℚ) : TelemetryBaseline where
  cpuLoadPct := blend b.cpuLoadPct target.cpuLoadPct alpha
  memoryLoadPct := blend b.memoryLoadPct target.memoryLoadPct alpha
  temperatureC := blend b.temperatureC target.temperatureC alpha
  networkKbps := blend b.networkKbps target.networkKbps alpha
  authFailures := blend b.authFailures target.authFailures alpha
  batteryPct := blend b.batteryPct target.batteryPct alpha
  integrityDrift := blend b.integrityDrift target.integrityDrift alpha
  processCount := blend b.processCount target.processCount alpha
  diskPressurePct := blend b.diskPressurePct target.diskPressurePct alpha

def update (b : TelemetryBaseline) (sample : TelemetrySample) (alpha : ℚ) : TelemetryBaseline :=
  b.blended (fromSample sample) alpha

/-- The neutral midpoint of `AdaptationMode::Decay`. -/
def mid : TelemetryBaseline where
  cpuLoadPct := 50
  memoryLoadPct := 50
  temperatureC := 40
  networkKbps := 1000
  authFailures := 0
  batteryPct := 50
  integrityDrift := 0
  processCount := 50
  diskPressurePct := 50

end TelemetryBaseline

/-! ## What a sample shows -/

structure DetectorConfig where
  warmupSamples : ℕ
  smoothing : ℚ
  learnThreshold : ℚ

def DetectorConfig.default : DetectorConfig where
  warmupSamples := 4
  smoothing := 22 / 100
  learnThreshold := 5 / 2

structure AnomalySignal where
  score : ℚ
  confidence : ℚ
  suspiciousAxes : ℕ
  reasons : List String
  contributions : List (String × ℚ)

inductive AdaptationMode where
  | normal
  | frozen
  | decay (rate : ℚ)
deriving DecidableEq

structure AnomalyDetector where
  config : DetectorConfig
  baseline : Option TelemetryBaseline
  observedSamples : ℕ
  adaptation : AdaptationMode
  customWeights : Option (KeyMap String ℚ)
  authHistory : List ℕ
  lastAuthSurgeCount : ℕ
  fpFeedback : KeyMap String ℕ
  fpAutoAdjustThreshold : ℕ

/-- What `evaluate` has found of a sample so far. -/
structure Findings where
  score : ℚ
  reasons : List String
  suspiciousAxes : ℕ
  contributions : List (String × ℚ)

/-- A rise over the baseline, on one axis. -/
structure Deviation where
  axis : String
  delta : ℚ
  scale : ℚ
  weight : ℚ
  label : String
  counted : Bool

namespace Findings

def none : Findings := ⟨0, [], 0, []⟩

/-- A contribution that is always reported, with its reason. -/
def add (f : Findings) (axis : String) (c : ℚ) (reason : String) : Findings where
  score := f.score + c
  reasons := f.reasons ++ [reason]
  suspiciousAxes := f.suspiciousAxes + 1
  contributions := f.contributions ++ [(axis, c)]

/-- A contribution that is reported if it is positive, with its reason if it has one. -/
def count (f : Findings) (axis : String) (c : ℚ × Option String) : Findings where
  score := f.score + c.1
  reasons := f.reasons ++ c.2.toList
  suspiciousAxes := f.suspiciousAxes + c.2.toList.length
  contributions := if c.1 > 0 then f.contributions ++ [(axis, c.1)] else f.contributions

end Findings

section

variable (fixed : ℕ → ℚ → String)

/-- The contribution, and the reason where the axis is suspicious. -/
def weightedPositiveDelta (delta scale weight : ℚ) (label : String) : ℚ × Option String :=
  if delta ≤ 0 then (0, none)
  else
    let normalized := if scale > 0 then delta / scale else 0
    (normalized * weight,
      if normalized ≥ 1 / 2 then some (label ++ " (+" ++ fixed 2 delta ++ ")") else none)

def Deviation.assess (v : Deviation) : ℚ × Option String :=
  if v.counted then weightedPositiveDelta fixed v.delta v.scale v.weight v.label else (0, none)

def correlationBonus : ℕ → ℚ
  | 3 => 15 / 100
  | 4 => 30 / 100
  | 5 => 50 / 100
  | _ => 70 / 100

/-- The bonus for axes that rise together. It is no axis of its own. -/
def Findings.correlated (f : Findings) : Findings :=
  if f.suspiciousAxes ≥ 3 then
    let bonus := correlationBonus f.suspiciousAxes
    { f with
      score := f.score + f.score * bonus
      reasons := f.reasons ++ ["cross-signal correlation: " ++ toString f.suspiciousAxes ++
        " axes elevated (+" ++ fixed 0 (bonus * 100) ++ "%)"]
      contributions := f.contributions ++ [("cross_signal_correlation", f.score * bonus)] }
  else f

end

/-! ## The detector -/

namespace AnomalyDetector

def new (config : DetectorConfig) : AnomalyDetector where
  config := config
  baseline := none
  observedSamples := 0
  adaptation := .normal
  customWeights := none
  authHistory := []
  lastAuthSurgeCount := 0
  fpFeedback := .empty
  fpAutoAdjustThreshold := 5

/-- The weights in use where none are set. -/
def defaultWeights : List (String × ℚ) :=
  [("cpu_load_pct", 85 / 100), ("memory_load_pct", 7 / 10), ("temperature_c", 8 / 10),
    ("network_kbps", 11 / 10), ("auth_failures", 16 / 10), ("integrity_drift", 19 / 10),
    ("process_count", 65 / 100), ("disk_pressure_pct", 6 / 10), ("battery_pct", 35 / 100)]

variable (d : AnomalyDetector)

def signalWeights : KeyMap String ℚ :=
  d.customWeights.getD fun axis => defaultWeights.lookup axis

def weightFor (axis : String) (default : ℚ) : ℚ :=
  (d.customWeights.bind fun weights => weights axis).getD default

def setSignalWeights (weights : KeyMap String ℚ) : AnomalyDetector :=
  { d with customWeights := some weights }

def setAdaptation (mode : AdaptationMode) : AnomalyDetector := { d with adaptation := mode }

def baselineReady : Bool := d.observedSamples ≥ d.config.warmupSamples && d.baseline.isSome

def resetBaseline : AnomalyDetector :=
  { d with baseline := none, observedSamples := 0, authHistory := [], lastAuthSurgeCount := 0 }

def restoreBaseline (persisted : PersistedBaseline) : AnomalyDetector :=
  { d with
    baseline := some persisted.toTelemetryBaseline
    observedSamples := persisted.observedSamples }

def snapshot : Option PersistedBaseline :=
  d.baseline.map fun b => { toTelemetryBaseline := b, observedSamples := d.observedSamples }

/-! ### Evaluation -/

def historyFactor : ℚ :=
  max (35 / 100) (min (d.observedSamples / (max d.config.warmupSamples 1 : ℕ)) 1)

/-- How far the count of failures has to be over the last one that was reported: a fifth of it,
rounded up. -/
def minSurgeGap : ℕ :=
  if d.lastAuthSurgeCount = 0 then 8 else max 5 (min ((d.lastAuthSurgeCount + 4) / 5) 25)

def authWindowHighWater (sample : TelemetrySample) : Bool :=
  d.authHistory = [] || d.authHistory.foldl max 0 = 0 ||
    sample.authFailures - d.lastAuthSurgeCount ≥ d.minSurgeGap

def authSurges (baseline : TelemetryBaseline) (sample : TelemetrySample) : Bool :=
  let delta := sample.authFailures - baseline.authFailures
  let relative := if baseline.authFailures ≥ 5 then
    decide ((sample.authFailures : ℚ) ≥ baseline.authFailures * (135 / 100)) else decide (delta ≥ 5)
  sample.authFailures ≥ 8 && decide (delta ≥ 3) && relative && d.authWindowHighWater sample

def authDeviation (baseline : TelemetryBaseline) (sample : TelemetrySample) : Deviation where
  axis := "auth_failures"
  delta := sample.authFailures - baseline.authFailures
  scale := 3
  weight := d.weightFor "auth_failures" (16 / 10)
  label := "auth failures surge"
  counted := d.authSurges baseline sample

/-- The axes in the order in which they are looked at. -/
def deviations (baseline : TelemetryBaseline) (sample : TelemetrySample) : List Deviation :=
  [⟨"cpu_load_pct", sample.cpuLoadPct - baseline.cpuLoadPct, 18,
      d.weightFor "cpu_load_pct" (85 / 100), "cpu load spike", true⟩,
    ⟨"memory_load_pct", sample.memoryLoadPct - baseline.memoryLoadPct, 14,
      d.weightFor "memory_load_pct" (7 / 10), "memory pressure increase", true⟩,
    ⟨"temperature_c", sample.temperatureC - baseline.temperatureC, 7,
      d.weightFor "temperature_c" (8 / 10), "thermal deviation", true⟩,
    ⟨"network_kbps", sample.networkKbps - baseline.networkKbps, 3500,
      d.weightFor "network_kbps" (11 / 10), "network burst", true⟩,
    d.authDeviation baseline sample,
    ⟨"integrity_drift", sample.integrityDrift - baseline.integrityDrift, 6 / 100,
      d.weightFor "integrity_drift" (19 / 10), "integrity drift increase", true⟩,
    ⟨"process_count", sample.processCount - baseline.processCount, 20,
      d.weightFor "process_count" (65 / 100), "process count spike", true⟩,
    ⟨"disk_pressure_pct", sample.diskPressurePct - baseline.diskPressurePct, 25,
      d.weightFor "disk_pressure_pct" (6 / 10), "disk pressure increase", true⟩]

/-- The last eight counts of failures. -/
def pushedHistory (sample : TelemetrySample) : List ℕ :=
  let history := d.authHistory ++ [sample.authFailures]
  if history.length > 8 then history.tail else history

section

variable (fixed : ℕ → ℚ → String)

def drained (baseline : TelemetryBaseline) (sample : TelemetrySample) (f : Findings) : Findings :=
  if sample.batteryPct < baseline.batteryPct - 18 then
    f.add "battery_pct" (d.weightFor "battery_pct" (35 / 100)) "battery dropped sharply under load"
  else f

/-- How fast the failures grow over the last three samples. -/
def accelerated (sample : TelemetrySample) (f : Findings) : Findings :=
  let history := d.pushedHistory sample
  if history.length ≥ 3 then
    let rate : ℚ := (history.getD (history.length - 1) 0 : ℕ) -
      (history.getD (history.length - 3) 0 : ℕ)
    if rate > 4 ∧ d.authWindowHighWater sample then
      f.add "auth_rate_of_change"
        (min (rate / 8) (3 / 2) * d.weightFor "auth_rate_of_change" (8 / 10))
        ("auth failure acceleration (+" ++ fixed 0 rate ++ " in 3 samples)")
    else f
  else f

def findings (baseline : TelemetryBaseline) (sample : TelemetrySample) : Findings :=
  let deviated := (d.deviations baseline sample).foldl
    (fun f v => f.count v.axis (v.assess fixed)) .none
  d.accelerated fixed sample ((d.drained baseline sample deviated).correlated fixed)

/-- The baseline after a sample with this score. -/
def adapted (baseline : TelemetryBaseline) (sample : TelemetrySample) (score : ℚ) :
    TelemetryBaseline :=
  match d.adaptation with
  | .normal =>
    if score < d.config.learnThreshold then baseline.update sample d.config.smoothing else baseline
  | .frozen => baseline
  | .decay rate => baseline.blended .mid rate

def evaluate (sample : TelemetrySample) : AnomalySignal × AnomalyDetector :=
  match d.baseline with
  | none =>
    ({ score := 0
       confidence := 25 / 100
       suspiciousAxes := 0
       reasons := ["baseline initialized"]
       contributions := [] },
      { d with baseline := some (.fromSample sample), observedSamples := 1 })
  | some baseline =>
    let found := d.findings fixed baseline sample
    let score := found.score * d.historyFactor
    ({ score := score
       confidence := d.historyFactor
       suspiciousAxes := found.suspiciousAxes
       reasons := if found.reasons = [] then ["within learned baseline"] else found.reasons
       contributions := found.contributions.map fun c => (c.1, c.2 * d.historyFactor) },
      { d with
        baseline := some (d.adapted baseline sample score)
        observedSamples := min (d.observedSamples + 1) (2 ^ 64 - 1)
        authHistory := d.pushedHistory sample
        lastAuthSurgeCount := if ((d.authDeviation baseline sample).assess fixed).1 > 0
          then sample.authFailures else d.lastAuthSurgeCount })

/-- What has evaluated the samples, one after the other. -/
def evaluated (samples : List TelemetrySample) : AnomalyDetector :=
  run (fun d sample => (d.evaluate fixed sample).2) d samples

end

/-! ### Feedback -/

/-- The count is a `u32`. -/
def recordFpFeedback (name : String) : AnomalyDetector :=
  let count := ((d.fpFeedback name).getD 0 + 1) % 2 ^ 32
  let d := { d with fpFeedback := d.fpFeedback.insert name count }
  if count ≥ d.fpAutoAdjustThreshold then
    { d with customWeights := some (d.signalWeights.modify name (· * (9 / 10))) }
  else d

end AnomalyDetector

/-! ## What a signal accounts for -/

namespace Findings

/-- How much more the reported contributions come to than the score. -/
def excess (f : Findings) : ℚ := (f.contributions.map Prod.snd).sum - f.score

def axes (f : Findings) : List String := f.contributions.map Prod.fst

/-- There is one reason for each suspicious axis, and one more for the bonus. -/
def Reasoned (f : Findings) : Prop :=
  f.reasons.length = f.suspiciousAxes + f.axes.count "cross_signal_correlation"

variable {f : Findings} {axis reason : String} {x : ℚ} {c : ℚ × Option String}

@[simp] theorem excess_add : (f.add axis x reason).excess = f.excess := by
  simp only [excess, add, List.map_append, List.map_cons, List.map_nil, List.sum_append,
    List.sum_singleton]
  ring

theorem excess_count : (f.count axis c).excess = f.excess + max (-c.1) 0 := by
  unfold excess count
  by_cases hc : c.1 > 0
  · rw [if_pos hc, max_eq_right (by linarith), List.map_append, List.sum_append]
    simp
  · rw [if_neg hc, max_eq_left (by linarith)]
    ring

@[simp] theorem excess_correlated (fixed : ℕ → ℚ → String) :
    (f.correlated fixed).excess = f.excess := by
  unfold correlated
  split_ifs
  · simp only [excess, List.map_append, List.map_cons, List.map_nil, List.sum_append,
      List.sum_singleton]
    ring
  · rfl

@[simp] theorem axes_add : (f.add axis x reason).axes = f.axes ++ [axis] := List.map_append

theorem axes_count_sublist : (f.count axis c).axes.Sublist (f.axes ++ [axis]) := by
  unfold axes count
  split_ifs
  · rw [List.map_append]
    exact List.Sublist.refl _
  · exact List.sublist_append_left _ _

theorem axes_correlated_sublist (fixed : ℕ → ℚ → String) :
    (f.correlated fixed).axes.Sublist (f.axes ++ ["cross_signal_correlation"]) := by
  unfold correlated
  split_ifs
  · unfold axes
    rw [List.map_append]
    exact List.Sublist.refl _
  · exact List.sublist_append_left _ _

theorem Reasoned.add (h : f.Reasoned) (haxis : axis ≠ "cross_signal_correlation") :
    (f.add axis x reason).Reasoned := by
  rw [Reasoned, axes_add, List.count_append, List.count_singleton, if_neg (by simpa using haxis)]
  have hlength : (f.add axis x reason).reasons.length = f.reasons.length + 1 :=
    List.length_append
  rw [hlength, h]
  change _ = f.suspiciousAxes + 1 + _
  omega

theorem Reasoned.count (h : f.Reasoned) (haxis : axis ≠ "cross_signal_correlation") :
    (f.count axis c).Reasoned := by
  have hcount : (f.count axis c).axes.count "cross_signal_correlation" =
      f.axes.count "cross_signal_correlation" := by
    unfold axes Findings.count
    split_ifs
    · simp [haxis]
    · rfl
  rw [Reasoned, hcount]
  change (f.reasons ++ c.2.toList).length = f.suspiciousAxes + c.2.toList.length + _
  rw [List.length_append, h]
  omega

theorem Reasoned.correlated (h : f.Reasoned) (fixed : ℕ → ℚ → String) :
    (f.correlated fixed).Reasoned := by
  unfold Findings.correlated
  split_ifs
  · simp only [Reasoned, axes, List.map_append, List.length_append, List.count_append] at h ⊢
    simp [h, Nat.add_assoc]
  · exact h

end Findings

/-- A contribution is negative where a negative weight meets a rise. -/
theorem Deviation.assess_nonneg_iff (fixed : ℕ → ℚ → String) {v : Deviation} (h : 0 < v.scale) :
    0 ≤ (v.assess fixed).1 ↔ (v.counted → 0 < v.delta → 0 ≤ v.weight) := by
  unfold Deviation.assess weightedPositiveDelta
  split_ifs with hcounted hdelta
  · exact iff_of_true le_rfl fun _ hpos => absurd hdelta (not_le.mpr hpos)
  · have hpos : 0 < v.delta := not_le.mp hdelta
    simp only [hcounted, hpos, true_imp_iff]
    exact mul_nonneg_iff_of_pos_left (div_pos hpos h)
  · exact iff_of_true le_rfl fun hc => absurd hc hcounted

namespace AnomalyDetector

variable (fixed : ℕ → ℚ → String) (d : AnomalyDetector) (baseline : TelemetryBaseline)
  (sample : TelemetrySample)

theorem excess_foldl (vs : List Deviation) (f : Findings) :
    (vs.foldl (fun f v => f.count v.axis (v.assess fixed)) f).excess =
      f.excess + (vs.map fun v => max (-(v.assess fixed).1) 0).sum := by
  induction vs generalizing f with
  | nil => simp
  | cons v vs ih =>
    rw [List.foldl_cons, ih, Findings.excess_count, List.map_cons, List.sum_cons, add_assoc]

theorem axes_foldl_sublist (vs : List Deviation) (f : Findings) :
    (vs.foldl (fun f v => f.count v.axis (v.assess fixed)) f).axes.Sublist
      (f.axes ++ vs.map Deviation.axis) := by
  induction vs generalizing f with
  | nil => simp
  | cons v vs ih =>
    rw [List.foldl_cons, List.map_cons, ← List.singleton_append, ← List.append_assoc]
    exact (ih _).trans (Findings.axes_count_sublist.append_right _)

theorem reasoned_foldl {vs : List Deviation} (hvs : ∀ v ∈ vs, v.axis ≠ "cross_signal_correlation")
    {f : Findings} (hf : f.Reasoned) :
    (vs.foldl (fun f v => f.count v.axis (v.assess fixed)) f).Reasoned := by
  induction vs generalizing f with
  | nil => exact hf
  | cons v vs ih =>
    exact ih (fun w hw => hvs w (List.mem_cons_of_mem v hw)) (hf.count (hvs v List.mem_cons_self))

theorem drained_cases (f : Findings) : d.drained baseline sample f = f ∨
    ∃ x reason, d.drained baseline sample f = f.add "battery_pct" x reason := by
  unfold drained
  split_ifs
  · exact .inr ⟨_, _, rfl⟩
  · exact .inl rfl

theorem accelerated_cases (f : Findings) : d.accelerated fixed sample f = f ∨
    ∃ x reason, d.accelerated fixed sample f = f.add "auth_rate_of_change" x reason := by
  unfold accelerated
  dsimp only
  split_ifs
  · exact .inr ⟨_, _, rfl⟩
  · exact .inl rfl
  · exact .inl rfl

theorem excess_findings : (d.findings fixed baseline sample).excess =
    ((d.deviations baseline sample).map fun v => max (-(v.assess fixed).1) 0).sum := by
  have hdrained : ∀ f, (d.drained baseline sample f).excess = f.excess := by
    intro f
    obtain h | ⟨x, reason, h⟩ := d.drained_cases baseline sample f <;> simp [h]
  have haccelerated : ∀ f, (d.accelerated fixed sample f).excess = f.excess := by
    intro f
    obtain h | ⟨x, reason, h⟩ := d.accelerated_cases fixed sample f <;> simp [h]
  rw [findings, haccelerated, Findings.excess_correlated, hdrained, excess_foldl]
  simp [Findings.excess, Findings.none]

/-- The names under which something can be reported, in the order of the reports. -/
def reportable : List String :=
  ["cpu_load_pct", "memory_load_pct", "temperature_c", "network_kbps", "auth_failures",
    "integrity_drift", "process_count", "disk_pressure_pct", "battery_pct",
    "cross_signal_correlation", "auth_rate_of_change"]

theorem axes_findings_sublist :
    (d.findings fixed baseline sample).axes.Sublist reportable := by
  have hdrained : ∀ f, (d.drained baseline sample f).axes.Sublist (f.axes ++ ["battery_pct"]) := by
    intro f
    obtain h | ⟨x, reason, h⟩ := d.drained_cases baseline sample f <;> rw [h]
    · exact List.sublist_append_left _ _
    · rw [Findings.axes_add]
  have haccelerated : ∀ f, (d.accelerated fixed sample f).axes.Sublist
      (f.axes ++ ["auth_rate_of_change"]) := by
    intro f
    obtain h | ⟨x, reason, h⟩ := d.accelerated_cases fixed sample f <;> rw [h]
    · exact List.sublist_append_left _ _
    · rw [Findings.axes_add]
  refine (haccelerated _).trans (((Findings.axes_correlated_sublist fixed).trans
    (((hdrained _).trans ((axes_foldl_sublist fixed (d.deviations baseline sample)
      .none).append_right _)).append_right _)).append_right _)

theorem reasoned_findings : (d.findings fixed baseline sample).Reasoned := by
  have hdeviated : ∀ v ∈ d.deviations baseline sample, v.axis ≠ "cross_signal_correlation" := by
    have haxes : ∀ axis ∈ (d.deviations baseline sample).map Deviation.axis,
        axis ≠ "cross_signal_correlation" := by
      change ∀ axis ∈ ["cpu_load_pct", "memory_load_pct", "temperature_c", "network_kbps",
        "auth_failures", "integrity_drift", "process_count", "disk_pressure_pct"],
        axis ≠ "cross_signal_correlation"
      decide
    exact fun v hv => haxes _ (List.mem_map_of_mem hv)
  have hdrained : ∀ f : Findings, f.Reasoned → (d.drained baseline sample f).Reasoned := by
    intro f hf
    obtain h | ⟨x, reason, h⟩ := d.drained_cases baseline sample f <;> rw [h]
    · exact hf
    · exact hf.add (by decide)
  have hfound := (hdrained _ (reasoned_foldl fixed hdeviated (f := .none) rfl)).correlated fixed
  unfold findings
  obtain h | ⟨x, reason, h⟩ := d.accelerated_cases fixed sample _ <;> rw [h]
  · exact hfound
  · exact hfound.add (by decide)

theorem scale_pos : ∀ v ∈ d.deviations baseline sample, 0 < v.scale := by
  have hscales : ∀ scale ∈ (d.deviations baseline sample).map Deviation.scale, 0 < scale := by
    change ∀ scale ∈ ([18, 14, 7, 3500, 3, 6 / 100, 20, 25] : List ℚ), 0 < scale
    norm_num
  exact fun v hv => hscales _ (List.mem_map_of_mem hv)

theorem excess_findings_eq_zero_iff : (d.findings fixed baseline sample).excess = 0 ↔
    ∀ v ∈ d.deviations baseline sample, v.counted → 0 < v.delta → 0 ≤ v.weight := by
  have hnonneg : ∀ x ∈ (d.deviations baseline sample).map fun v => max (-(v.assess fixed).1) 0,
      0 ≤ x := by
    intro x hx
    obtain ⟨v, -, rfl⟩ := List.mem_map.mp hx
    exact le_max_right _ _
  rw [excess_findings]
  constructor
  · intro hsum v hv
    have hzero := List.all_zero_of_le_zero_le_of_sum_eq_zero hnonneg hsum (List.mem_map_of_mem hv)
    refine (Deviation.assess_nonneg_iff fixed (d.scale_pos baseline sample v hv)).mp ?_
    linarith [le_max_left (-(v.assess fixed).1) 0]
  · intro h
    refine List.sum_eq_zero fun x hx => ?_
    obtain ⟨v, hv, rfl⟩ := List.mem_map.mp hx
    refine max_eq_right (neg_nonpos.mpr ?_)
    exact (Deviation.assess_nonneg_iff fixed (d.scale_pos baseline sample v hv)).mpr (h v hv)

theorem historyFactor_pos : 0 < d.historyFactor := by
  have hfloor : (0 : ℚ) < 35 / 100 := by norm_num
  exact hfloor.trans_le (le_max_left _ _)

end AnomalyDetector

end Wardex.Runtime
