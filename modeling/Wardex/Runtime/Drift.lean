import Mathlib.Data.List.DropRight
import Wardex.Lib.BoundedQueue
import Wardex.Lib.WeightedMean
import Wardex.Runtime.Detector

/-! The Page–Hinkley detector over a stream of observations, and the learner that lets an anomaly
detector start again from the last samples when the scores have drifted. -/

namespace Wardex.Runtime

open Wardex.Lib

structure DriftResult where
  drifted : Bool
  cumulativeSum : ℚ
  threshold : ℚ
  samplesSinceReset : ℕ

structure DriftDetector where
  delta : ℚ
  threshold : ℚ
  mean : ℚ
  sum : ℚ
  minSum : ℚ
  count : ℕ

namespace DriftDetector

def new (delta threshold : ℚ) : DriftDetector where
  delta := delta
  threshold := threshold
  mean := 0
  sum := 0
  minSum := 0
  count := 0

def update (d : DriftDetector) (value : ℚ) : DriftResult × DriftDetector :=
  let count := d.count + 1
  let mean := d.mean + (value - d.mean) / count
  let sum := d.sum + (value - mean - d.delta)
  let minSum := if sum < d.minSum then sum else d.minSum
  let testStat := sum - minSum
  ({ drifted := decide (testStat > d.threshold)
     cumulativeSum := testStat
     threshold := d.threshold
     samplesSinceReset := count },
    { d with mean, sum, minSum, count })

def reset (d : DriftDetector) : DriftDetector :=
  { d with mean := 0, sum := 0, minSum := 0, count := 0 }

def sampleCount (d : DriftDetector) : ℕ := d.count

end DriftDetector

inductive DriftCall where
  | update (value : ℚ)
  | reset

def DriftDetector.after (d : DriftDetector) : DriftCall → DriftDetector
  | .update value => (d.update value).2
  | .reset => d.reset

/-- What was observed after the last reset. -/
def DriftCall.sinceReset (calls : List DriftCall) : List ℚ :=
  calls.foldl (fun
    | values, .update value => values ++ [value]
    | _, .reset => []) []

/-! ## What counts as a drift -/

/-- How far each value lies above the mean of the values up to it. -/
def shifts (values : List ℚ) : List ℚ :=
  values.zipIdx.map fun p => p.1 - mean (values.take (p.2 + 1))

theorem shifts_concat (values : List ℚ) (value : ℚ) :
    shifts (values ++ [value]) = shifts values ++ [value - mean (values ++ [value])] := by
  have hbefore : ∀ p ∈ values.zipIdx,
      (values ++ [value]).take (p.2 + 1) = values.take (p.2 + 1) := by
    intro p hp
    have hlt : p.2 < values.length := by
      have := List.mem_zipIdx hp
      omega
    exact List.take_append_of_le_length hlt
  unfold shifts
  rw [List.zipIdx_append, List.map_append]
  congr 1
  · exact List.map_congr_left fun p hp => by rw [hbefore p hp]
  · have hall : (values ++ [value]).take (values.length + 1) = values ++ [value] :=
      List.take_of_length_le (by simp)
    simp [hall]

namespace DriftDetector

/-- What the detector holds of the values since the last reset. -/
structure Holds (delta threshold : ℚ) (values : List ℚ) (d : DriftDetector) : Prop where
  delta_eq : d.delta = delta
  threshold_eq : d.threshold = threshold
  count_eq : d.count = values.length
  mean_eq : d.mean = Lib.mean values
  tallied_eq : (d.sum, d.minSum) = tallied ((shifts values).map (· - delta))

variable {delta threshold value : ℚ} {values : List ℚ} {d : DriftDetector}

theorem Holds.nil (h : d.delta = delta) (h' : d.threshold = threshold) :
    d.reset.Holds delta threshold [] := by
  refine ⟨h, h', rfl, ?_, rfl⟩
  simp [reset, Lib.mean]

theorem Holds.update (h : d.Holds delta threshold values) :
    (d.update value).2.Holds delta threshold (values ++ [value]) := by
  have hmean : d.mean + (value - d.mean) / ((d.count + 1 : ℕ) : ℚ) =
      Lib.mean (values ++ [value]) := by
    rw [h.mean_eq, h.count_eq, Lib.mean, Lib.mean, List.sum_append, List.sum_singleton,
      List.length_append, List.length_singleton]
    have hpos : ((values.length + 1 : ℕ) : ℚ) ≠ 0 := by positivity
    rcases values.eq_nil_or_concat' with rfl | ⟨vs, v, rfl⟩
    · simp
    · have hlength : ((vs ++ [v]).length : ℚ) ≠ 0 := by simp; positivity
      push_cast at hpos ⊢
      field_simp
      ring
  refine ⟨h.delta_eq, h.threshold_eq, ?_, hmean, ?_⟩
  · rw [List.length_append, List.length_singleton, ← h.count_eq]
    rfl
  · obtain ⟨hsum, hmin⟩ := Prod.mk.inj (h.tallied_eq.trans (Prod.eta _).symm)
    rw [shifts_concat, List.map_append, List.map_singleton, tallied_concat, ← hsum, ← hmin, ← hmean,
      ← h.delta_eq, min_comm]
    refine Prod.ext rfl ?_
    change (if _ < _ then _ else _) = _
    split_ifs with hlt
    · exact (min_eq_left hlt.le).symm
    · exact (min_eq_right (not_lt.mp hlt)).symm

theorem holds_run (delta threshold : ℚ) (calls : List DriftCall) :
    (run after (new delta threshold) calls).Holds delta threshold (DriftCall.sinceReset calls) := by
  induction calls using List.reverseRecOn with
  | nil => exact Holds.nil (d := new delta threshold) rfl rfl
  | append_singleton calls call ih =>
    rw [run_append, DriftCall.sinceReset, List.foldl_concat]
    cases call with
    | update value => exact ih.update
    | reset => exact Holds.nil ih.delta_eq ih.threshold_eq

end DriftDetector

/-! ## Learning again -/

structure ContinualLearner where
  detector : AnomalyDetector
  driftScore : DriftDetector
  relearnCount : ℕ
  window : List TelemetrySample
  windowCap : ℕ

namespace ContinualLearner

def new (detector : AnomalyDetector) (windowCap : ℕ) : ContinualLearner where
  detector := detector
  driftScore := .new (1 / 2) 15
  relearnCount := 0
  window := []
  windowCap := windowCap

/-- `Vec::remove` panics on the empty window. -/
def slid (l : ContinualLearner) (sample : TelemetrySample) : Option (List TelemetrySample) :=
  if l.window.length ≥ l.windowCap then
    match l.window with
    | [] => none
    | _ :: rest => some (rest ++ [sample])
  else some (l.window ++ [sample])

variable (fixed : ℕ → ℚ → String)

def step (l : ContinualLearner) (sample : TelemetrySample) :
    Option ((AnomalySignal × Option DriftResult) × ContinualLearner) :=
  let evaluated := l.detector.evaluate fixed sample
  (l.slid sample).map fun window =>
    let updated := l.driftScore.update evaluated.1.score
    if updated.1.drifted then
      let fresh := (evaluated.2.resetBaseline.evaluated fixed window).evaluate fixed sample
      ((fresh.1, some updated.1),
        { l with
          detector := fresh.2
          driftScore := updated.2.reset
          relearnCount := l.relearnCount + 1
          window })
    else ((evaluated.1, none), { l with detector := evaluated.2, driftScore := updated.2, window })

def steps (l : ContinualLearner) (samples : List TelemetrySample) : Option ContinualLearner :=
  samples.foldlM (fun l sample => (l.step fixed sample).map Prod.snd) l

/-- What is answered along the samples. -/
def answers (l : ContinualLearner) :
    List TelemetrySample → Option (List (AnomalySignal × Option DriftResult))
  | [] => some []
  | sample :: samples =>
    (l.step fixed sample).bind fun p => (answers p.2 samples).map (p.1 :: ·)

end ContinualLearner

/-- Settings are kept. -/
theorem AnomalyDetector.resetBaseline_evaluate (fixed : ℕ → ℚ → String) (d : AnomalyDetector)
    (sample : TelemetrySample) :
    (d.evaluate fixed sample).2.resetBaseline = d.resetBaseline := by
  unfold evaluate
  cases d.baseline <;> rfl

theorem AnomalyDetector.resetBaseline_evaluated (fixed : ℕ → ℚ → String) (d : AnomalyDetector)
    (samples : List TelemetrySample) :
    (d.evaluated fixed samples).resetBaseline = d.resetBaseline := by
  induction samples generalizing d with
  | nil => rfl
  | cons sample samples ih => exact (ih _).trans (d.resetBaseline_evaluate fixed sample)

namespace ContinualLearner

variable {fixed : ℕ → ℚ → String} {d d' : AnomalyDetector} {cap : ℕ} {l l' : ContinualLearner}
  {samples : List TelemetrySample} {sample : TelemetrySample}

/-- What a learner keeps of the samples that it has seen. -/
structure Follows (d : AnomalyDetector) (cap : ℕ) (samples : List TelemetrySample)
    (l : ContinualLearner) : Prop where
  settings : l.detector.resetBaseline = d.resetBaseline
  drift : l.driftScore.reset = .new (1 / 2) 15
  window : l.window = samples.rtake cap
  windowCap : l.windowCap = cap

theorem follows_new (d : AnomalyDetector) (cap : ℕ) : (new d cap).Follows d cap [] :=
  ⟨rfl, rfl, by simp [new, List.rtake], rfl⟩

/-- The window slides unless it has no room for anything. -/
theorem Follows.slid (h : l.Follows d cap samples) (sample : TelemetrySample) :
    l.slid sample = if cap = 0 then none else some ((samples ++ [sample]).rtake cap) := by
  have hlength : l.window.length = min cap samples.length := by
    rw [h.window, length_rtake]
  unfold ContinualLearner.slid
  rw [h.windowCap]
  by_cases hcap : cap = 0
  · have hnil : l.window = [] := List.length_eq_zero_iff.mp (by omega)
    simp [hnil, hcap]
  · have hmax : max cap 1 = cap := max_eq_left (Nat.one_le_iff_ne_zero.mpr hcap)
    have hroll := roll_rtake cap samples sample
    rw [hmax, ← h.window, roll] at hroll
    rw [if_neg hcap, ← hroll]
    split_ifs with hfull
    · cases hwindow : l.window with
      | nil =>
        rw [hwindow, List.length_nil] at hfull
        omega
      | cons first rest => rfl
    · rfl

theorem Follows.ne_zero (h : l.Follows d cap samples) {p}
    (hstep : l.step fixed sample = some p) : cap ≠ 0 := by
  rintro rfl
  have hslid : l.slid sample = none := h.slid sample
  rw [step, hslid] at hstep
  cases hstep

theorem Follows.slid_of_pos (h : l.Follows d cap samples) (hcap : cap ≠ 0)
    (sample : TelemetrySample) : l.slid sample = some ((samples ++ [sample]).rtake cap) :=
  (h.slid sample).trans (if_neg hcap)

theorem Follows.step (h : l.Follows d cap samples) {answer}
    (hstep : l.step fixed sample = some (answer, l')) : l'.Follows d cap (samples ++ [sample]) := by
  have hslid := h.slid_of_pos (h.ne_zero hstep) sample
  simp only [ContinualLearner.step, hslid, Option.map_some, Option.some.injEq] at hstep
  have hevaluate : (l.detector.evaluate fixed sample).2.resetBaseline = d.resetBaseline :=
    (l.detector.resetBaseline_evaluate fixed sample).trans h.settings
  split_ifs at hstep with hdrifted
  · obtain ⟨-, rfl⟩ := Prod.mk.inj hstep
    refine ⟨?_, h.drift, rfl, h.windowCap⟩
    rw [AnomalyDetector.resetBaseline_evaluate, AnomalyDetector.resetBaseline_evaluated, hevaluate]
    rfl
  · obtain ⟨-, rfl⟩ := Prod.mk.inj hstep
    exact ⟨hevaluate, h.drift, rfl, h.windowCap⟩

theorem follows_steps (hsteps : (new d cap).steps fixed samples = some l) :
    l.Follows d cap samples := by
  induction samples using List.reverseRecOn generalizing l with
  | nil =>
    obtain rfl := Option.some.inj hsteps
    exact follows_new d cap
  | append_singleton samples sample ih =>
    rw [steps, List.foldlM_append] at hsteps
    obtain ⟨before, hbefore, hlast⟩ := Option.bind_eq_some_iff.mp hsteps
    rw [List.foldlM_cons] at hlast
    obtain ⟨after, hafter, hnil⟩ := Option.bind_eq_some_iff.mp hlast
    obtain ⟨p, hp, rfl⟩ := Option.map_eq_some_iff.mp hafter
    obtain rfl := Option.some.inj hnil
    exact (ih hbefore).step hp

/-- What a drift leaves behind: a detector that has seen the last samples only, and the current one
once more. -/
theorem Follows.relearned (h : l.Follows d cap samples) {signal drift}
    (hstep : l.step fixed sample = some ((signal, some drift), l')) :
    signal = ((d.resetBaseline.evaluated fixed ((samples ++ [sample]).rtake cap)).evaluate fixed
        sample).1 ∧
      l'.detector = d.resetBaseline.evaluated fixed ((samples ++ [sample]).rtake cap ++ [sample]) ∧
      l'.driftScore = .new (1 / 2) 15 ∧ l'.window = (samples ++ [sample]).rtake cap ∧
      l'.windowCap = cap := by
  have hslid := h.slid_of_pos (h.ne_zero hstep) sample
  simp only [ContinualLearner.step, hslid, Option.map_some, Option.some.injEq] at hstep
  have hevaluate : (l.detector.evaluate fixed sample).2.resetBaseline = d.resetBaseline :=
    (l.detector.resetBaseline_evaluate fixed sample).trans h.settings
  split_ifs at hstep with hdrifted
  · obtain ⟨hanswer, rfl⟩ := Prod.mk.inj hstep
    obtain ⟨rfl, -⟩ := Prod.mk.inj hanswer
    rw [hevaluate]
    refine ⟨rfl, ?_, h.drift, rfl, h.windowCap⟩
    rw [AnomalyDetector.evaluated, AnomalyDetector.evaluated, run_append]
    rfl
  · cases hstep

theorem Follows.exists_answers (h : l.Follows d cap samples) (hcap : cap ≠ 0)
    (fixed : ℕ → ℚ → String) (later : List TelemetrySample) :
    ∃ answers, l.answers fixed later = some answers ∧ answers.length = later.length := by
  induction later generalizing l samples with
  | nil => exact ⟨[], rfl, rfl⟩
  | cons sample later ih =>
    obtain ⟨p, hp⟩ : ∃ p, l.step fixed sample = some p := by
      rw [ContinualLearner.step, h.slid_of_pos hcap sample]
      exact ⟨_, rfl⟩
    obtain ⟨answers, hanswers, hlength⟩ := ih (h.step hp)
    refine ⟨p.1 :: answers, ?_, congrArg (· + 1) hlength⟩
    rw [ContinualLearner.answers, hp, Option.bind_some, hanswers, Option.map_some]

/-- How often it has learned again is only counted. -/
theorem answers_congr (hdetector : l.detector = l'.detector) (hdrift : l.driftScore = l'.driftScore)
    (hwindow : l.window = l'.window) (hcap : l.windowCap = l'.windowCap)
    (samples : List TelemetrySample) : l.answers fixed samples = l'.answers fixed samples := by
  induction samples generalizing l l' with
  | nil => rfl
  | cons sample samples ih =>
    have hslid : l.slid sample = l'.slid sample := by
      rw [slid, slid, hwindow, hcap]
    rw [answers, answers, step, step, hslid, hdetector, hdrift]
    cases l'.slid sample with
    | none => rfl
    | some window =>
      simp only [Option.map_some, Option.bind_some]
      split_ifs
      · exact congrArg _ (ih rfl rfl rfl hcap)
      · exact congrArg _ (ih rfl rfl rfl hcap)

/-- A drift wipes out the past: two learners with the same settings that report one on the same
sample, after the same last samples, answer alike from then on, whatever came before. -/
theorem relearn_forgets (hsettings : d.resetBaseline = d'.resetBaseline)
    {past past' recent : List TelemetrySample} (hrecent : cap ≤ recent.length + 1)
    (hsteps : (new d cap).steps fixed (past ++ recent) = some l)
    (hsteps' : (new d' cap).steps fixed (past' ++ recent) = some l') {signal signal' drift drift'}
    {after after' : ContinualLearner}
    (hdrift : l.step fixed sample = some ((signal, some drift), after))
    (hdrift' : l'.step fixed sample = some ((signal', some drift'), after')) :
    signal = signal' ∧ ∀ later, ∃ answers, answers.length = later.length ∧
      after.answers fixed later = some answers ∧ after'.answers fixed later = some answers := by
  have hwindow : ∀ earlier : List TelemetrySample, ((earlier ++ recent) ++ [sample]).rtake cap =
      (recent ++ [sample]).rtake cap := by
    intro earlier
    have hlong : cap ≤ (recent ++ [sample]).length := by simpa using hrecent
    rw [List.append_assoc, List.rtake, List.rtake, List.length_append,
      Nat.add_sub_assoc hlong, List.drop_length_add_append]
  obtain ⟨hsignal, hdetector, hscore, hslid, hcap⟩ := (follows_steps hsteps).relearned hdrift
  obtain ⟨hsignal', hdetector', hscore', hslid', hcap'⟩ :=
    (follows_steps hsteps').relearned hdrift'
  rw [hwindow] at hsignal hdetector hslid hsignal' hdetector' hslid'
  rw [← hsettings] at hsignal' hdetector'
  refine ⟨hsignal.trans hsignal'.symm, fun later => ?_⟩
  have hfollows := (follows_steps hsteps).step hdrift
  obtain ⟨answers, hanswers, hlength⟩ :=
    hfollows.exists_answers ((follows_steps hsteps).ne_zero hdrift) fixed later
  refine ⟨answers, hlength, hanswers, hanswers ▸ ?_⟩
  exact answers_congr (hdetector'.trans hdetector.symm) (hscore'.trans hscore.symm)
    (hslid'.trans hslid.symm) (hcap'.trans hcap.symm) later

theorem exists_of_any (fixed : ℕ → ℚ → String) (sample : TelemetrySample)
    {x : Option ContinualLearner} (h : (x.bind (·.step fixed sample)).any (·.1.2.isSome) = true) :
    ∃ l signal drift after, x = some l ∧
      l.step fixed sample = some ((signal, some drift), after) := by
  obtain ⟨p, hp, hisSome⟩ := (Option.any_eq_true _ _).mp h
  obtain ⟨l, hl, hstep⟩ := Option.bind_eq_some_iff.mp hp
  obtain ⟨⟨signal, drift⟩, after⟩ := p
  obtain ⟨result, rfl⟩ := Option.isSome_iff_exists.mp hisSome
  exact ⟨l, signal, result, after, hl, hstep⟩

theorem relearn_forgets_flood : ∃ signal after after',
    (∃ l drift, (new (.new .default) 2).steps (fun _ _ => "") (demoSamples.take 2) = some l ∧
      l.step (fun _ _ => "") ⟨6000, 50, 50, 50, 900000, 0, 80, 0, 60, 20⟩ =
        some ((signal, some drift), after)) ∧
    (∃ l drift, (new (.new .default) 2).steps (fun _ _ => "")
        (demoSamples.drop 2 ++ demoSamples.take 2) = some l ∧
      l.step (fun _ _ => "") ⟨6000, 50, 50, 50, 900000, 0, 80, 0, 60, 20⟩ =
        some ((signal, some drift), after')) ∧
    ∃ answers, after.answers (fun _ _ => "") demoSamples = some answers ∧
      after'.answers (fun _ _ => "") demoSamples = some answers := by
  obtain ⟨l, signal, drift, after, hsteps, hdrift⟩ := exists_of_any (fun _ _ => "")
    ⟨6000, 50, 50, 50, 900000, 0, 80, 0, 60, 20⟩
    (x := (new (.new .default) 2).steps (fun _ _ => "") ([] ++ demoSamples.take 2))
    (by decide +kernel)
  obtain ⟨l', signal', drift', after', hsteps', hdrift'⟩ := exists_of_any (fun _ _ => "")
    ⟨6000, 50, 50, 50, 900000, 0, 80, 0, 60, 20⟩
    (x := (new (.new .default) 2).steps (fun _ _ => "") (demoSamples.drop 2 ++ demoSamples.take 2))
    (by decide +kernel)
  obtain ⟨rfl, hlater⟩ := relearn_forgets rfl (by decide) hsteps hsteps' hdrift hdrift'
  obtain ⟨answers, -, hanswers, hanswers'⟩ := hlater demoSamples
  exact ⟨signal, after, after', ⟨l, drift, hsteps, hdrift⟩, ⟨l', drift', hsteps', hdrift'⟩, answers,
    hanswers, hanswers'⟩

end ContinualLearner

end Wardex.Runtime
