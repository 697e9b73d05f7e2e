import Mathlib.Analysis.Convex.Hull
import Wardex.Runtime.Detector

/-! What moves the baseline of a detector, and what feedback does to its weights, over every
sequence of calls. -/

namespace Wardex.Runtime

open Wardex.Lib

inductive DetectorCall where
  | evaluate (sample : TelemetrySample)
  | setSignalWeights (weights : KeyMap String ℚ)
  | setAdaptation (mode : AdaptationMode)
  | resetBaseline
  | restoreBaseline (persisted : PersistedBaseline)
  | recordFpFeedback (name : String)

/-- A component of the baseline. -/
inductive Axis where
  | cpuLoadPct
  | memoryLoadPct
  | temperatureC
  | networkKbps
  | authFailures
  | batteryPct
  | integrityDrift
  | processCount
  | diskPressurePct

def TelemetryBaseline.component (b : TelemetryBaseline) : Axis → ℚ
  | .cpuLoadPct => b.cpuLoadPct
  | .memoryLoadPct => b.memoryLoadPct
  | .temperatureC => b.temperatureC
  | .networkKbps => b.networkKbps
  | .authFailures => b.authFailures
  | .batteryPct => b.batteryPct
  | .integrityDrift => b.integrityDrift
  | .processCount => b.processCount
  | .diskPressurePct => b.diskPressurePct

theorem TelemetryBaseline.component_blended (b target : TelemetryBaseline) (alpha : ℚ)
    (axis : Axis) : (b.blended target alpha).component axis =
      blend (b.component axis) (target.component axis) alpha := by
  cases axis <;> rfl

theorem blend_mem {S : Set ℚ} (hS : Convex ℚ S) {current next alpha : ℚ} (hcurrent : current ∈ S)
    (hnext : next ∈ S) (h0 : 0 ≤ alpha) (h1 : alpha ≤ 1) : blend current next alpha ∈ S :=
  hS hcurrent hnext (sub_nonneg.mpr h1) h0 (sub_add_cancel 1 alpha)

namespace AnomalyDetector

variable (fixed : ℕ → ℚ → String)

def after (d : AnomalyDetector) : DetectorCall → AnomalyDetector
  | .evaluate sample => (d.evaluate fixed sample).2
  | .setSignalWeights weights => d.setSignalWeights weights
  | .setAdaptation mode => d.setAdaptation mode
  | .resetBaseline => d.resetBaseline
  | .restoreBaseline persisted => d.restoreBaseline persisted
  | .recordFpFeedback name => d.recordFpFeedback name

/-- The baseline that the call sets, or towards which it moves the one there is. -/
def teacher (d : AnomalyDetector) : DetectorCall → Option TelemetryBaseline
  | .evaluate sample =>
    match d.baseline, d.adaptation with
    | none, _ => some (.fromSample sample)
    | some _, .normal =>
      if (d.evaluate fixed sample).1.score < d.config.learnThreshold then some (.fromSample sample)
      else none
    | some _, .frozen => none
    | some _, .decay _ => some .mid
  | .restoreBaseline persisted => some persisted.toTelemetryBaseline
  | _ => none

end AnomalyDetector

/-- The rates are shares. -/
def AdaptationMode.Moderate : AdaptationMode → Prop
  | .decay rate => 0 ≤ rate ∧ rate ≤ 1
  | _ => True

def DetectorCall.Moderate : DetectorCall → Prop
  | .setAdaptation mode => mode.Moderate
  | _ => True

/-! ## What the baseline is made of -/

namespace AnomalyDetector

variable {fixed : ℕ → ℚ → String} {d : AnomalyDetector} {baseline : TelemetryBaseline}

theorem evaluate_of_none (h : d.baseline = none) (sample : TelemetrySample) :
    (d.evaluate fixed sample).2 =
      { d with baseline := some (.fromSample sample), observedSamples := 1 } := by
  simp [evaluate, h]

theorem baseline_evaluate_of_some (h : d.baseline = some baseline) (sample : TelemetrySample) :
    (d.evaluate fixed sample).2.baseline =
      some (d.adapted baseline sample (d.evaluate fixed sample).1.score) := by
  simp [evaluate, h]

variable (fixed d) in
theorem evaluate_frame (sample : TelemetrySample) :
    (d.evaluate fixed sample).2.config = d.config ∧
      (d.evaluate fixed sample).2.adaptation = d.adaptation := by
  unfold evaluate
  cases d.baseline <;> exact ⟨rfl, rfl⟩

theorem recordFpFeedback_frame (name : String) :
    (d.recordFpFeedback name).config = d.config ∧
      (d.recordFpFeedback name).adaptation = d.adaptation ∧
      (d.recordFpFeedback name).baseline = d.baseline := by
  unfold recordFpFeedback
  dsimp only
  split_ifs <;> exact ⟨rfl, rfl, rfl⟩

/-- The rates are shares, and the component of the baseline lies in the set. -/
structure Learned (S : Set ℚ) (axis : Axis) (d : AnomalyDetector) : Prop where
  smoothing : 0 ≤ d.config.smoothing ∧ d.config.smoothing ≤ 1
  adaptation : d.adaptation.Moderate
  baseline : ∀ b ∈ d.baseline, b.component axis ∈ S

variable {S : Set ℚ} {axis : Axis}

theorem Learned.adapted (hS : Convex ℚ S) (h : d.Learned S axis)
    (hbaseline : d.baseline = some baseline) {sample : TelemetrySample}
    (hteacher : ∀ t ∈ d.teacher fixed (.evaluate sample), t.component axis ∈ S) :
    (d.adapted baseline sample (d.evaluate fixed sample).1.score).component axis ∈ S := by
  have hold : baseline.component axis ∈ S := h.baseline baseline hbaseline
  simp only [teacher, hbaseline] at hteacher
  have hmoderate := h.adaptation
  unfold AnomalyDetector.adapted
  cases hmode : d.adaptation with
  | normal =>
    simp only [hmode] at hteacher
    split_ifs with hscore
    · rw [if_pos hscore] at hteacher
      rw [TelemetryBaseline.update, TelemetryBaseline.component_blended]
      exact blend_mem hS hold (hteacher _ rfl) h.smoothing.1 h.smoothing.2
    · exact hold
  | frozen => exact hold
  | decay rate =>
    simp only [hmode] at hteacher
    rw [hmode] at hmoderate
    rw [TelemetryBaseline.component_blended]
    exact blend_mem hS hold (hteacher _ rfl) hmoderate.1 hmoderate.2

theorem Learned.after (hS : Convex ℚ S) (h : d.Learned S axis) {call : DetectorCall}
    (hmoderate : call.Moderate)
    (hteacher : ∀ t ∈ d.teacher fixed call, t.component axis ∈ S) :
    (d.after fixed call).Learned S axis := by
  cases call with
  | evaluate sample =>
    obtain ⟨hconfig, hadaptation⟩ := d.evaluate_frame fixed sample
    refine ⟨hconfig.symm ▸ h.smoothing, hadaptation.symm ▸ h.adaptation, ?_⟩
    cases hbaseline : d.baseline with
    | none =>
      rw [AnomalyDetector.after, evaluate_of_none hbaseline]
      simp only [teacher, hbaseline] at hteacher
      exact hteacher
    | some baseline =>
      rw [AnomalyDetector.after, baseline_evaluate_of_some hbaseline]
      intro b hb
      obtain rfl := Option.some.inj hb
      exact h.adapted hS hbaseline hteacher
  | setSignalWeights weights => exact ⟨h.smoothing, h.adaptation, h.baseline⟩
  | setAdaptation mode => exact ⟨h.smoothing, hmoderate, h.baseline⟩
  | resetBaseline => exact ⟨h.smoothing, h.adaptation, fun b hb => by cases hb⟩
  | restoreBaseline persisted => exact ⟨h.smoothing, h.adaptation, hteacher⟩
  | recordFpFeedback name =>
    obtain ⟨hconfig, hadaptation, hbaseline⟩ := recordFpFeedback_frame (d := d) name
    exact ⟨hconfig.symm ▸ h.smoothing, hadaptation.symm ▸ h.adaptation, hbaseline.symm ▸ h.baseline⟩

/-- What a component was taught along the calls: the values of the samples that were learned, of
the baselines that were restored, and of the neutral one while the detector decays.  A sample that
scores too high, or that comes while the detector is frozen, is none of them. -/
def taught (fixed : ℕ → ℚ → String) (d : AnomalyDetector) (calls : List DetectorCall)
    (axis : Axis) : Set ℚ :=
  {x | ∃ before call later, calls = before ++ call :: later ∧
    ∃ t ∈ (run (after fixed) d before).teacher fixed call, t.component axis = x}

def confirmed (d : AnomalyDetector) (name : String) : ℕ := (d.fpFeedback name).getD 0

theorem confirmed_recordFpFeedback (name axis : String) :
    (d.recordFpFeedback name).confirmed axis =
      if axis = name then (d.confirmed axis + 1) % 2 ^ 32 else d.confirmed axis := by
  have hinsert : (d.recordFpFeedback name).fpFeedback =
      d.fpFeedback.insert name ((d.confirmed name + 1) % 2 ^ 32) := by
    unfold recordFpFeedback confirmed
    dsimp only
    split_ifs <;> rfl
  rw [confirmed, hinsert, KeyMap.insert_apply]
  split_ifs with hname
  · rw [hname, Option.getD_some]
  · rfl

theorem signalWeights_recordFpFeedback (name axis : String) :
    (d.recordFpFeedback name).signalWeights axis =
      if axis = name ∧ d.fpAutoAdjustThreshold ≤ (d.confirmed axis + 1) % 2 ^ 32 then
        (d.signalWeights axis).map (· * (9 / 10))
      else d.signalWeights axis := by
  have hunfold : (d.recordFpFeedback name).signalWeights =
      if d.fpAutoAdjustThreshold ≤ (d.confirmed name + 1) % 2 ^ 32 then
        d.signalWeights.modify name (· * (9 / 10)) else d.signalWeights := by
    unfold recordFpFeedback confirmed
    dsimp only
    split_ifs <;> rfl
  rw [hunfold]
  by_cases hname : axis = name
  · subst hname
    split_ifs with hreached hboth hboth
    · exact KeyMap.modify_self _ _ _
    · exact absurd ⟨rfl, hreached⟩ hboth
    · exact absurd hboth.2 hreached
    · rfl
  · simp only [hname, false_and, if_false]
    split_ifs
    · exact KeyMap.modify_of_ne _ hname _
    · rfl

variable (fixed d) in
/-- What feedback depends on. -/
theorem evaluate_weights (sample : TelemetrySample) :
    (d.evaluate fixed sample).2.signalWeights = d.signalWeights ∧
      (d.evaluate fixed sample).2.fpFeedback = d.fpFeedback ∧
      (d.evaluate fixed sample).2.fpAutoAdjustThreshold = d.fpAutoAdjustThreshold := by
  unfold evaluate
  cases d.baseline <;> exact ⟨rfl, rfl, rfl⟩

@[simp] theorem threshold_recordFpFeedback (name : String) :
    (d.recordFpFeedback name).fpAutoAdjustThreshold = d.fpAutoAdjustThreshold := by
  unfold recordFpFeedback
  dsimp only
  split_ifs <;> rfl

end AnomalyDetector

/-- The call confirms a false positive of this name. -/
def DetectorCall.confirms (axis : String) : DetectorCall → Bool
  | .recordFpFeedback name => axis = name
  | _ => false

def DetectorCall.setsWeights : DetectorCall → Bool
  | .setSignalWeights _ => true
  | _ => false

namespace AnomalyDetector

variable {fixed : ℕ → ℚ → String} {d : AnomalyDetector} {axis : String} {call : DetectorCall}

variable (fixed) in
/-- A call that neither confirms a false positive of the axis nor sets weights leaves its weight,
its count and the threshold. -/
theorem after_of_other (hset : call.setsWeights = false) (hother : call.confirms axis = false) :
    (d.after fixed call).signalWeights axis = d.signalWeights axis ∧
      (d.after fixed call).confirmed axis = d.confirmed axis ∧
      (d.after fixed call).fpAutoAdjustThreshold = d.fpAutoAdjustThreshold := by
  cases call with
  | evaluate sample =>
    obtain ⟨hweights, hfeedback, hthreshold⟩ := d.evaluate_weights fixed sample
    exact ⟨congrFun hweights axis, congrArg (fun m => (m axis).getD 0) hfeedback, hthreshold⟩
  | setSignalWeights weights => cases hset
  | recordFpFeedback name =>
    have hname : axis ≠ name := of_decide_eq_false hother
    refine ⟨?_, ?_, threshold_recordFpFeedback name⟩
    · exact (signalWeights_recordFpFeedback name axis).trans (if_neg fun h => hname h.1)
    · exact (confirmed_recordFpFeedback name axis).trans (if_neg hname)
  | _ => exact ⟨rfl, rfl, rfl⟩

variable (fixed) in
/-- Each confirmation from the threshold on takes a tenth off the weight of the axis, whatever else
is called in between. -/
theorem signalWeights_run {w : ℚ} (hw : d.signalWeights axis = some w) (calls : List DetectorCall)
    (hset : ∀ c ∈ calls, c.setsWeights = false)
    (hsmall : d.confirmed axis + calls.countP (·.confirms axis) < 2 ^ 32) :
    (run (after fixed) d calls).signalWeights axis =
      some (w * (9 / 10) ^ (d.confirmed axis + calls.countP (·.confirms axis) + 1 -
        max d.fpAutoAdjustThreshold (d.confirmed axis + 1))) := by
  induction calls generalizing d w with
  | nil => simp [hw]
  | cons call calls ih =>
    have hset' : ∀ c ∈ calls, c.setsWeights = false := fun c hc =>
      hset c (List.mem_cons_of_mem call hc)
    rw [run_cons]
    cases hconfirms : call.confirms axis with
    | false =>
      obtain ⟨hweights, hconfirmed, hthreshold⟩ :=
        after_of_other fixed (d := d) (hset call List.mem_cons_self) hconfirms
      have hcount : (call :: calls).countP (·.confirms axis) = calls.countP (·.confirms axis) :=
        List.countP_cons_of_neg (Bool.eq_false_iff.mp hconfirms)
      rw [hcount] at hsmall ⊢
      rw [ih (hweights.trans hw) hset' (hconfirmed.symm ▸ hsmall), hconfirmed, hthreshold]
    | true =>
      have hcount : (call :: calls).countP (·.confirms axis) = calls.countP (·.confirms axis) + 1 :=
        List.countP_cons_of_pos hconfirms
      rw [hcount] at hsmall ⊢
      obtain ⟨name, rfl⟩ : ∃ name, call = .recordFpFeedback name := by
        cases call <;> first | exact ⟨_, rfl⟩ | cases hconfirms
      obtain rfl : axis = name := of_decide_eq_true hconfirms
      have hmod : (d.confirmed axis + 1) % 2 ^ 32 = d.confirmed axis + 1 :=
        Nat.mod_eq_of_lt (by omega)
      have hconfirmed : (d.after fixed (.recordFpFeedback axis)).confirmed axis =
          d.confirmed axis + 1 :=
        ((confirmed_recordFpFeedback axis axis).trans (if_pos rfl)).trans hmod
      have hthreshold : (d.after fixed (.recordFpFeedback axis)).fpAutoAdjustThreshold =
          d.fpAutoAdjustThreshold := threshold_recordFpFeedback axis
      have hweights : (d.after fixed (.recordFpFeedback axis)).signalWeights axis = _ :=
        signalWeights_recordFpFeedback axis axis
      rw [hmod, hw] at hweights
      by_cases hreached : d.fpAutoAdjustThreshold ≤ d.confirmed axis + 1
      · rw [if_pos ⟨rfl, hreached⟩] at hweights
        rw [ih hweights hset' (by omega), hconfirmed, hthreshold, max_eq_right hreached,
          max_eq_right (by omega), mul_assoc, ← pow_succ']
        congr 3
        omega
      · rw [if_neg fun h => hreached h.2] at hweights
        rw [ih hweights hset' (by omega), hconfirmed, hthreshold, max_eq_left (by omega),
          max_eq_left (by omega)]
        congr 3
        omega

/-- For the axes of the table the weight in use is the one that is shown. -/
theorem weightFor_eq {default w : ℚ} (haxis : defaultWeights.lookup axis = some default)
    (hw : d.signalWeights axis = some w) : d.weightFor axis default = w := by
  unfold signalWeights at hw
  unfold weightFor
  cases hcustom : d.customWeights with
  | none =>
    rw [hcustom, Option.getD_none] at hw
    exact Option.some.inj (haxis.symm.trans hw)
  | some weights =>
    rw [hcustom, Option.getD_some] at hw
    rw [Option.bind_some, hw, Option.getD_some]

/-- From a new detector: four confirmations of an axis change nothing, and every further one takes a
tenth off the weight with which the axis is scored. -/
theorem weight_after_feedback (fixed : ℕ → ℚ → String) (config : DetectorConfig) {default : ℚ}
    (haxis : defaultWeights.lookup axis = some default) (calls : List DetectorCall)
    (hset : ∀ c ∈ calls, c.setsWeights = false)
    (hsmall : calls.countP (·.confirms axis) < 2 ^ 32) :
    (run (after fixed) (new config) calls).weightFor axis default =
      default * (9 / 10) ^ (calls.countP (·.confirms axis) - 4) := by
  have hrun := signalWeights_run fixed (d := new config) haxis calls hset
    (by rwa [show (new config).confirmed axis = 0 from rfl, Nat.zero_add])
  have hexponent : (new config).confirmed axis + calls.countP (·.confirms axis) + 1 -
      max (new config).fpAutoAdjustThreshold ((new config).confirmed axis + 1) =
        calls.countP (·.confirms axis) - 4 := by
    change 0 + calls.countP (·.confirms axis) + 1 - max 5 (0 + 1) = _
    omega
  rw [weightFor_eq haxis hrun, hexponent]

theorem weight_after_feedback_demo : (run (after fun _ _ => "") (new .default)
      (demoSamples.map .evaluate ++ List.replicate 6 (.recordFpFeedback "auth_failures"))).weightFor
        "auth_failures" (16 / 10) = 16 / 10 * (9 / 10) ^ 2 := by
  have haxis : defaultWeights.lookup "auth_failures" = some (16 / 10) := by
    simp [defaultWeights, List.lookup_cons]
  have hcount : (demoSamples.map DetectorCall.evaluate ++
      List.replicate 6 (DetectorCall.recordFpFeedback "auth_failures")).countP
        (DetectorCall.confirms "auth_failures") = 6 := by decide
  have hweight := weight_after_feedback (fun _ _ => "") .default haxis
    (demoSamples.map .evaluate ++ List.replicate 6 (.recordFpFeedback "auth_failures"))
    (by decide) (by rw [hcount]; decide)
  rwa [hcount] at hweight

end AnomalyDetector

end Wardex.Runtime
