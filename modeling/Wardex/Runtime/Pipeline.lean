import Wardex.Runtime.Checkpoints
import Wardex.Runtime.StateMachine
import Wardex.Temporal.Safety

/-! The pipeline over a batch of samples: each is scored, a decision is taken, and what was found
and done is recorded; at the end a monitor looks at the whole run.  The simulation of the device,
its energy, its timing and its compliance feed only the text of the last record. -/

namespace Wardex.Runtime

open Wardex.Lib Wardex.Audit Wardex.Policy Wardex.Temporal

open Swarm (ThreatLevel)

instance f32Rat : F32 ℚ := ⟨fun a b => decide (a ≤ b)⟩

/-- What the pipeline is told from outside: hashes, texts and the time, what the enforcers answer,
and how many signals correlate. -/
structure Outside where
  sha256 : List UInt8 → List UInt8
  toVec : PersistedBaseline → List UInt8
  fixed : ℕ → ℚ → String
  now : ℕ → String
  nowMs : ℕ → ℕ
  blockAll : String → String
  suspendProcess : ℕ → String → String
  correlate : List TelemetrySample → ℕ × ℕ
  surroundings : List TelemetrySample → List PolicyDecision → String

structure SampleReport where
  index : ℕ
  sample : TelemetrySample
  signal : AnomalySignal
  decision : PolicyDecision

structure RunSummary where
  totalSamples : ℕ
  alertCount : ℕ
  criticalCount : ℕ
  averageScore : ℚ
  maxScore : ℚ

/-- The state of the loop over the samples. -/
structure Execution where
  detector : AnomalyDetector
  audit : AuditLog
  checkpoints : CheckpointStore
  stateMachine : PolicyStateMachine
  proofs : List ProofEntry
  replay : RingBuffer TelemetrySample 100
  enforcementActions : List String
  reports : List SampleReport

structure RunResult where
  reports : List SampleReport
  summary : RunSummary
  audit : AuditLog
  correlation : Option (ℕ × ℕ)
  monitorViolations : List Violation
  enforcementActions : List String

def transitionTrigger (sample : TelemetrySample) (signal : AnomalySignal) : TransitionTrigger :=
  if sample.integrityDrift ≥ 45 / 100 then .integrityDrift sample.integrityDrift
  else if sample.batteryPct < 20 then .batteryDegradation sample.batteryPct
  else .scoreThreshold signal.score

section

variable (o : Outside)

/-- The decision for a sample, with the notes that the policy makes on the score. -/
def policyDecision (signal : AnomalySignal) (sample : TelemetrySample) : PolicyDecision :=
  PolicyEngine.evaluate
    (fun score percent => "score " ++ o.fixed 2 score ++ " with " ++ o.fixed 0 percent ++
      "% confidence")
    ⟨signal.score, signal.confidence⟩ ⟨sample.batteryPct, sample.integrityDrift⟩

/-- Adds records, given by their categories and texts. -/
def recordAll (log : AuditLog) (entries : List (String × String)) : AuditLog :=
  entries.foldl (fun log p => log.record o.sha256 p.1 p.2) log

namespace Execution

/-- From `severe` on the device is cut off or a process is stopped. -/
def enforced (index : ℕ) (level : ThreatLevel) : Option String :=
  if level.rank ≥ ThreatLevel.severe.rank then
    some (if level = .critical then
      "network_block: " ++ o.blockAll ("device-" ++ toString index)
    else "process_suspend: " ++
      o.suspendProcess ((index + 1000) % 2 ^ 32) ("suspect-" ++ toString index))
  else none

def detectText (index : ℕ) (signal : AnomalySignal) (decision : PolicyDecision) : String :=
  "sample=" ++ toString (index + 1) ++ " score=" ++ o.fixed 2 signal.score ++ " level=" ++
    decision.level.asStr ++ " axes=" ++ toString signal.suspiciousAxes ++ " reasons=" ++
    ", ".intercalate signal.reasons

def respondText (index : ℕ) (decision : PolicyDecision) : String :=
  "sample=" ++ toString (index + 1) ++ " action=" ++ actionName decision.action ++
    " isolation=" ++ toString decision.isolationPct ++ " rationale=" ++ decision.rationale

/-- What is recorded of one sample. -/
def entries (index : ℕ) (signal : AnomalySignal) (decision : PolicyDecision) :
    List (String × String) :=
  (enforced o index decision.level).toList.map (fun action =>
    ("enforcement", "sample=" ++ toString (index + 1) ++ " " ++ action)) ++
  [("detect", detectText o index signal decision)] ++
  if decision.level ≠ .nominal then [("respond", respondText index decision)] else []

def start : Execution where
  detector := .new .default
  audit := (AuditLog.withCheckpointInterval 5).record o.sha256 "boot"
    "Wardex runtime started in prototype mode"
  checkpoints := .new 10
  stateMachine := .new
  proofs := []
  replay := .empty TelemetrySample 100
  enforcementActions := []
  reports := []

/-- The body of the loop. -/
def observe (e : Execution) (sample : TelemetrySample) : Execution :=
  let index := e.reports.length
  let evaluated := e.detector.evaluate o.fixed sample
  let signal := evaluated.1
  let detector := evaluated.2
  let decision := policyDecision o signal sample
  let proof := ProofEntry.record o.sha256 "baseline_update"
    (ControlPlane.snapshotBytes o.toVec e.detector) (ControlPlane.snapshotBytes o.toVec detector)
    (o.now index)
  { detector
    audit := recordAll o e.audit (entries o index signal decision)
    checkpoints :=
      if decision.level.rank ≥ ThreatLevel.severe.rank then
        e.checkpoints.capture detector (o.nowMs index)
      else e.checkpoints
    stateMachine := e.stateMachine.step
      ⟨decision.level, decision.action, transitionTrigger sample signal⟩
    proofs := e.proofs ++ [proof]
    replay := e.replay.push sample
    enforcementActions := e.enforcementActions ++ (enforced o index decision.level).toList
    reports := e.reports ++ [⟨index + 1, sample, signal, decision⟩] }

end Execution

/-- The events that the monitor is fed with for one report. -/
def SampleReport.events (r : SampleReport) : List (MonitorEvent ℚ) :=
  .sample r.signal.score r.sample.batteryPct ::
    if r.decision.level ≠ .nominal then
      [.alert r.decision.level.asStr, .action (actionName r.decision.action) r.sample.batteryPct]
    else []

def Transition.event (t : Transition) : MonitorEvent ℚ := .transition t.source.asStr t.target.asStr

def defaultSafetyMonitor : Monitor ℚ :=
  (Monitor.new.addProperty (.scoreBounded 10)).addProperty .noSkipEscalation

def summarize (reports : List SampleReport) : RunSummary where
  totalSamples := reports.length
  alertCount := reports.countP fun r => r.decision.level ≠ .nominal
  criticalCount := reports.countP fun r => r.decision.level = .critical
  averageScore :=
    if reports.length = 0 then 0 else (reports.map (·.signal.score)).sum / reports.length
  maxScore := (reports.map (·.signal.score)).foldl max 0

namespace Execution

def monitored (e : Execution) : Monitor ℚ :=
  (e.reports.flatMap SampleReport.events ++ e.stateMachine.trace.map Transition.event).foldl
    Monitor.step defaultSafetyMonitor

def summaryText (s : RunSummary) (e : Execution) : String :=
  "samples=" ++ toString s.totalSamples ++ " alerts=" ++ toString s.alertCount ++ " critical=" ++
    toString s.criticalCount ++ " avg_score=" ++ o.fixed 2 s.averageScore ++ " max_score=" ++
    o.fixed 2 s.maxScore ++ " replay_buffer=" ++ toString e.replay.items.length ++ " proofs=" ++
    toString e.proofs.length

def correlation (e : Execution) : Option (ℕ × ℕ) :=
  if e.replay.items.length ≥ 3 then some (o.correlate e.replay.items) else none

def violations (e : Execution) : List Violation := e.monitored.violations.map Prod.snd

/-- What is recorded after the loop. -/
def closing (e : Execution) : List (String × String) :=
  [("summary", summaryText o (summarize e.reports) e)] ++
  (match e.correlation o with
    | some (pairs, coRising) =>
      if pairs > 0 ∨ coRising > 0 then
        [("correlation", "correlated_pairs=" ++ toString pairs ++ " co_rising=" ++
          toString coRising)]
      else []
    | none => []) ++
  (if e.violations ≠ [] then
    [("monitor", "violations=" ++ toString e.violations.length ++ " properties=" ++
      ", ".intercalate (e.violations.map Violation.propertyName))]
  else []) ++
  [("enrichment", "enforcement_actions=" ++ toString e.enforcementActions.length ++
    " ti_matches=0 " ++ o.surroundings (e.reports.map SampleReport.sample)
      (e.reports.map SampleReport.decision))]

def finish (e : Execution) : RunResult where
  reports := e.reports
  summary := summarize e.reports
  audit := recordAll o e.audit (e.closing o)
  correlation := e.correlation o
  monitorViolations := e.violations
  enforcementActions := e.enforcementActions

end Execution

def execute (samples : List TelemetrySample) : RunResult :=
  (run (Execution.observe o) (.start o) samples).finish o

end

/-! ## The log -/

/-- The log verifies, and its running hash is that of its end. -/
def Sound (sha256 : List UInt8 → List UInt8) (log : AuditLog) : Prop :=
  log.Tracks ∧ log.verifyChain sha256 = .ok ()

def categories (log : AuditLog) : List String := log.records.map AuditRecord.category

section

variable {o : Outside} {log : AuditLog}

theorem Sound.record (h : Sound o.sha256 log) (category text : String) :
    Sound o.sha256 (log.record o.sha256 category text) :=
  AuditLog.verifies_step o.sha256 (.record category text) h trivial

theorem categories_record (sha256 : List UInt8 → List UInt8) (category text : String) :
    categories (log.record sha256 category text) = categories log ++ [category] := by
  have hblocks := congrArg (List.map fun b : Block String (String × String) => b.body.1)
    (AuditLog.record_blocks sha256 log category text)
  simpa [AuditLog.blocks, categories, AuditRecord.block, Function.comp_def] using hblocks

theorem Sound.recordAll (h : Sound o.sha256 log) (entries : List (String × String)) :
    Sound o.sha256 (recordAll o log entries) := by
  induction entries generalizing log with
  | nil => exact h
  | cons p entries ih => exact ih (h.record p.1 p.2)

theorem categories_recordAll (entries : List (String × String)) :
    categories (recordAll o log entries) = categories log ++ entries.map Prod.fst := by
  induction entries generalizing log with
  | nil => exact (List.append_nil _).symm
  | cons p entries ih =>
    change categories (recordAll o (log.record o.sha256 p.1 p.2) entries) = _
    rw [ih, categories_record, List.append_assoc, List.singleton_append, List.map_cons]

end

/-- The categories of the records of one sample. -/
def SampleReport.categories (r : SampleReport) : List String :=
  (if r.decision.level.rank ≥ ThreatLevel.severe.rank then ["enforcement"] else []) ++
    ["detect"] ++ if r.decision.level ≠ .nominal then ["respond"] else []

/-- The categories of the records after the loop. -/
def RunResult.closing (r : RunResult) : List String :=
  ["summary"] ++
  (if r.correlation.any (fun c => c.1 > 0 ∨ c.2 > 0) then ["correlation"] else []) ++
  (if r.monitorViolations ≠ [] then ["monitor"] else []) ++ ["enrichment"]

namespace Execution

variable (o : Outside)

theorem categories_entries (r : SampleReport) (index : ℕ) :
    (entries o index r.signal r.decision).map Prod.fst = r.categories := by
  unfold entries SampleReport.categories enforced
  split_ifs <;> rfl

theorem categories_closing (e : Execution) :
    (e.closing o).map Prod.fst = (e.finish o).closing := by
  unfold closing RunResult.closing finish
  dsimp only
  cases e.correlation o with
  | none => split_ifs <;> simp_all
  | some c => split_ifs <;> simp_all

/-- What the loop has recorded. -/
structure Logged (samples : List TelemetrySample) (e : Execution) : Prop where
  sound : Sound o.sha256 e.audit
  categories_eq : categories e.audit = "boot" :: e.reports.flatMap SampleReport.categories
  sample_eq : e.reports.map SampleReport.sample = samples
  index_eq : e.reports.map SampleReport.index = List.range' 1 samples.length

theorem logged_start : (start o).Logged o [] := by
  refine ⟨?_, ?_, rfl, rfl⟩
  · exact Sound.record ⟨AuditLog.tracks_withCheckpointInterval 5, rfl⟩ _ _
  · exact categories_record o.sha256 _ _

variable {o} {e : Execution} {samples : List TelemetrySample}

theorem Logged.observe (h : e.Logged o samples) (sample : TelemetrySample) :
    (e.observe o sample).Logged o (samples ++ [sample]) := by
  have hlength : e.reports.length = samples.length := by
    rw [← h.sample_eq, List.length_map]
  refine ⟨h.sound.recordAll _, ?_, ?_, ?_⟩
  · refine (categories_recordAll _).trans ?_
    have hentries := categories_entries o
      ⟨e.reports.length + 1, sample, (e.detector.evaluate o.fixed sample).1,
        policyDecision o (e.detector.evaluate o.fixed sample).1 sample⟩ e.reports.length
    rw [h.categories_eq, hentries]
    change _ = "boot" :: (e.reports ++ [_]).flatMap SampleReport.categories
    rw [List.flatMap_append, List.flatMap_singleton]
    rfl
  · change (e.reports ++ [_]).map SampleReport.sample = _
    rw [List.map_append, h.sample_eq]
    rfl
  · change (e.reports ++ [_]).map SampleReport.index = _
    rw [List.map_append, h.index_eq, List.length_append, List.length_singleton,
      List.range'_1_concat, List.map_singleton, hlength, Nat.add_comm]

theorem logged_run (o : Outside) (samples : List TelemetrySample) :
    (run (Execution.observe o) (start o) samples).Logged o samples := by
  induction samples using List.reverseRecOn with
  | nil => exact logged_start o
  | append_singleton samples sample ih =>
    rw [run_append]
    exact ih.observe sample

end Execution

/-- Whatever the samples and the world outside, the log of a run verifies, and it holds one record
for each thing that happened, in order: the start, for each sample what was enforced, found and
answered, the summary, and at the end what the analyses of the whole run have found. -/
theorem execute_log (o : Outside) (samples : List TelemetrySample) :
    (execute o samples).audit.verifyChain o.sha256 = .ok () ∧
      categories (execute o samples).audit =
        "boot" :: (execute o samples).reports.flatMap SampleReport.categories ++
          (execute o samples).closing ∧
      (execute o samples).reports.map SampleReport.sample = samples ∧
      (execute o samples).reports.map SampleReport.index = List.range' 1 samples.length := by
  have hlogged := Execution.logged_run o samples
  refine ⟨(hlogged.sound.recordAll _).2, ?_, hlogged.sample_eq, hlogged.index_eq⟩
  refine (categories_recordAll _).trans ?_
  rw [hlogged.categories_eq, Execution.categories_closing]
  rfl

/-! ## What the monitor reports -/

theorem rank_le_critical (level : ThreatLevel) : level.rank ≤ ThreatLevel.critical.rank := by
  cases level <;> decide

theorem names_reports_always {F : Type} {p : Property F} {pred : Predicate F}
    (h : p.obligation = .always pred) (hguard : ∀ event, p.guardMatches event = true) (count : ℕ)
    (events : List (MonitorEvent F)) :
    (Monitor.reports p count .idle events).map Violation.propertyName =
      if ∃ e ∈ events, matchesStream p.stream e = true ∧ pred e = false then [p.name] else [] := by
  obtain ⟨hfirst, hnone⟩ := reports_always h count false events
  have hbroken (k : ℕ) : BrokenFrom p pred false events k ↔
      ∃ e, events[k]? = some e ∧ matchesStream p.stream e = true ∧ pred e = false := by
    refine and_iff_left_of_imp ?_
    rintro ⟨e, he, hstream, -⟩
    exact .inr ⟨k, le_rfl, e, he, hstream, hguard e⟩
  split_ifs with hfails
  · have hex : ∃ k, BrokenFrom p pred false events k := by
      obtain ⟨e, he, hfail⟩ := hfails
      obtain ⟨k, hk⟩ := List.mem_iff_getElem?.mp he
      exact ⟨k, (hbroken k).mpr ⟨e, hk, hfail⟩⟩
    classical
    exact congrArg (List.map Violation.propertyName)
      (hfirst (Nat.find hex) (Nat.find_spec hex) fun _ hk => Nat.find_min hex hk)
  · refine congrArg (List.map Violation.propertyName) (hnone fun k hk => hfails ?_)
    obtain ⟨e, he, hfail⟩ := (hbroken k).mp hk
    exact ⟨e, List.mem_of_getElem? he, hfail⟩

namespace Execution

variable {o : Outside} {e : Execution} {samples : List TelemetrySample}

def Critical (e : Execution) : Prop := ∃ r ∈ e.reports, r.decision.level = .critical

/-- A critical decision is always a legal step, so the trace shows it. -/
theorem critical_trace_run (o : Outside) (samples : List TelemetrySample) :
    (∃ t ∈ (run (observe o) (start o) samples).stateMachine.trace, t.target = .critical) ↔
      (run (observe o) (start o) samples).Critical := by
  induction samples using List.reverseRecOn with
  | nil => simp [start, PolicyStateMachine.new, Critical]
  | append_singleton samples sample ih =>
    rw [run_append, run_cons, run_nil]
    generalize run (observe o) (start o) samples = e at ih ⊢
    have hreports : (e.observe o sample).Critical ↔ e.Critical ∨
        (policyDecision o (e.detector.evaluate o.fixed sample).1 sample).level = .critical := by
      change (∃ r ∈ e.reports ++ [_], r.decision.level = .critical) ↔ _
      simp only [List.mem_append, List.mem_singleton, or_and_right, exists_or, exists_eq_left]
      rfl
    rw [hreports, ← ih]
    change (∃ t ∈ (e.stateMachine.step _).trace, t.target = .critical) ↔ _
    generalize policyDecision o (e.detector.evaluate o.fixed sample).1 sample = decision
    unfold PolicyStateMachine.step
    split_ifs with hlegal
    · simp only [List.mem_append, List.mem_singleton, or_and_right, exists_or, exists_eq_left]
    · refine (or_iff_left fun hcritical => hlegal ?_).symm
      rw [hcritical]
      exact if_pos (rank_le_critical _)

/-- The calls that the monitor has had at the end. -/
def monitorOps (e : Execution) : List (MonitorOp ℚ) :=
  (e.reports.flatMap SampleReport.events ++ e.stateMachine.trace.map Transition.event).map .step

theorem monitored_eq (e : Execution) : e.monitored = run Monitor.after
    ((run Monitor.after .new [.addProperty (.scoreBounded 10)]).addProperty .noSkipEscalation)
    e.monitorOps := by
  unfold monitored monitorOps run
  rw [List.foldl_map]
  rfl

theorem events_monitorOps (e : Execution) : Monitor.events e.monitorOps =
    e.reports.flatMap SampleReport.events ++ e.stateMachine.trace.map Transition.event := by
  unfold Monitor.events monitorOps
  rw [List.filterMap_map]
  exact List.filterMap_some

theorem mem_monitored_events {e : Execution} {p : MonitorEvent ℚ → Prop} :
    (∃ event ∈ Monitor.events e.monitorOps, p event) ↔
      (∃ r ∈ e.reports, ∃ event ∈ r.events, p event) ∨
        ∃ t ∈ e.stateMachine.trace, p t.event := by
  rw [events_monitorOps]
  simp only [List.mem_append, or_and_right, exists_or, List.mem_flatMap, List.mem_map]
  refine or_congr ⟨?_, ?_⟩ ⟨?_, ?_⟩
  · rintro ⟨event, ⟨r, hr, hevent⟩, hp⟩
    exact ⟨r, hr, event, hevent, hp⟩
  · rintro ⟨r, hr, event, hevent, hp⟩
    exact ⟨event, ⟨r, hr, hevent⟩, hp⟩
  · rintro ⟨_, ⟨t, ht, rfl⟩, hp⟩
    exact ⟨t, ht, hp⟩
  · rintro ⟨t, ht, hp⟩
    exact ⟨t.event, ⟨t, ht, rfl⟩, hp⟩

theorem recorded_scoreBounded (e : Execution) :
    (e.monitored.recorded 0).map Violation.propertyName =
      if ∃ r ∈ e.reports, 10 < r.signal.score then ["score_bounded"] else [] := by
  have hrecorded : e.monitored.recorded 0 = Monitor.reports (.scoreBounded 10) 0 .idle
      (Monitor.events e.monitorOps) := by
    rw [monitored_eq]
    exact Monitor.recorded_addProperty [] (.addProperty .noSkipEscalation :: e.monitorOps)
      (.scoreBounded 10)
  rw [hrecorded, names_reports_always rfl fun _ => rfl]
  refine if_congr ?_ rfl rfl
  rw [mem_monitored_events]
  have htrace : ¬ ∃ t ∈ e.stateMachine.trace,
      matchesStream .sample t.event = true ∧ Temporal.scoreBounded 10 t.event = false := by
    rintro ⟨t, -, hstream, -⟩
    exact Bool.false_ne_true hstream
  refine (or_iff_left htrace).trans (exists_congr fun r => and_congr_right fun _ => ?_)
  constructor
  · rintro ⟨event, hevent, hstream, hscore⟩
    rcases List.mem_cons.mp hevent with rfl | hother
    · exact not_le.mp (decide_eq_false_iff_not.mp hscore)
    · split_ifs at hother
      · rcases List.mem_pair.mp hother with rfl | rfl <;> cases hstream
      · cases hother
  · intro hscore
    exact ⟨_, List.mem_cons_self, rfl, decide_eq_false_iff_not.mpr (not_le.mpr hscore)⟩

theorem asStr_eq_critical {level : ThreatLevel} : level.asStr = "critical" ↔ level = .critical := by
  cases level <;> decide

theorem recorded_noSkipEscalation (e : Execution) :
    (e.monitored.recorded 1).map Violation.propertyName =
      if ∃ t ∈ e.stateMachine.trace, t.target = .critical then ["no_skip_escalation"]
      else [] := by
  have hrecorded : e.monitored.recorded 1 = Monitor.reports .noSkipEscalation 0 .idle
      (Monitor.events e.monitorOps) := by
    rw [monitored_eq]
    exact Monitor.recorded_addProperty [.addProperty (.scoreBounded 10)] e.monitorOps
      .noSkipEscalation
  rw [hrecorded, names_reports_always rfl fun _ => rfl]
  refine if_congr ?_ rfl rfl
  rw [mem_monitored_events]
  have hreports : ¬ ∃ r ∈ e.reports, ∃ event ∈ r.events,
      matchesStream .transition event = true ∧ transitionToNot "critical" event = false := by
    rintro ⟨r, -, event, hevent, hstream, -⟩
    rcases List.mem_cons.mp hevent with rfl | hother
    · cases hstream
    · split_ifs at hother
      · rcases List.mem_pair.mp hother with rfl | rfl <;> cases hstream
      · cases hother
  refine (or_iff_right hreports).trans (exists_congr fun t => and_congr_right fun _ => ?_)
  exact (and_iff_right rfl).trans (bne_eq_false_iff_eq.trans asStr_eq_critical)

theorem violations_lt (e : Execution) : ∀ v ∈ e.monitored.violations, v.1 < 2 := by
  have hproperties (events : List (MonitorEvent ℚ)) (m : Monitor ℚ) :
      (events.foldl Monitor.step m).properties = m.properties := by
    induction events generalizing m with
    | nil => rfl
    | cons event events ih => exact ih (m.step event)
  have hinv : e.monitored.Inv := by
    rw [monitored_eq]
    exact Monitor.inv_run (.addProperty (.scoreBounded 10) :: .addProperty .noSkipEscalation ::
      e.monitorOps)
  intro v hv
  have hlt := hinv.bound v hv
  rwa [monitored, hproperties] at hlt

theorem violations_perm (e : Execution) :
    e.violations.Perm (e.monitored.recorded 0 ++ e.monitored.recorded 1) := by
  unfold violations Monitor.recorded
  rw [← List.map_append]
  refine List.Perm.map _ ?_
  have hrest : e.monitored.violations.filter (fun v => v.1 = 1) =
      e.monitored.violations.filter fun v => !decide (v.1 = 0) := by
    refine List.filter_congr fun v hv => ?_
    have hlt := e.violations_lt v hv
    rw [← decide_not]
    exact decide_eq_decide.mpr (by omega)
  rw [hrest]
  exact (List.filter_append_perm _ _).symm

end Execution

theorem lt_foldl_max {a c : ℚ} (scores : List ℚ) :
    c < scores.foldl max a ↔ c < a ∨ ∃ score ∈ scores, c < score := by
  induction scores generalizing a with
  | nil => simp
  | cons score scores ih => simp [ih, or_assoc]

/-- The monitor reports a run for a score above the bound, and once for all critical decisions: it
takes every transition to the highest level for one that has skipped a level. -/
theorem execute_violations (o : Outside) (samples : List TelemetrySample) :
    ((execute o samples).monitorViolations.map Violation.propertyName).Perm
      ((if 10 < (execute o samples).summary.maxScore then ["score_bounded"] else []) ++
        if 0 < (execute o samples).summary.criticalCount then ["no_skip_escalation"] else []) := by
  have hviolations := (Execution.violations_perm (run (Execution.observe o) (.start o) samples)).map
    Violation.propertyName
  rw [List.map_append, Execution.recorded_scoreBounded, Execution.recorded_noSkipEscalation]
    at hviolations
  refine hviolations.trans (List.Perm.of_eq ?_)
  congr 1
  · refine if_congr ?_ rfl rfl
    change _ ↔ 10 < ((execute o samples).reports.map fun r => r.signal.score).foldl max 0
    have hzero : ¬ (10 : ℚ) < 0 := by norm_num
    rw [lt_foldl_max, or_iff_right hzero]
    constructor
    · rintro ⟨r, hr, hscore⟩
      exact ⟨_, List.mem_map_of_mem hr, hscore⟩
    · rintro ⟨_, hmem, hscore⟩
      obtain ⟨r, hr, rfl⟩ := List.mem_map.mp hmem
      exact ⟨r, hr, hscore⟩
  · refine if_congr ?_ rfl rfl
    change _ ↔ 0 < (execute o samples).reports.countP _
    rw [Execution.critical_trace_run, List.countP_pos_iff]
    simp only [decide_eq_true_eq]
    rfl

end Wardex.Runtime
