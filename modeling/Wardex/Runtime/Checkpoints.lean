import Mathlib.Data.List.Chain
import Wardex.Audit.Chain
import Wardex.Lib.BoundedQueue
import Wardex.Lib.Delimited
import Wardex.Policy.Composition
import Wardex.Runtime.Detector

/-! The control plane of a device: the detector and what is done to the device, the checkpoints that
both are set back to, and the proofs that record how the baseline changes. -/

namespace Wardex.Runtime

open Wardex.Lib Wardex.Audit Wardex.Policy

/-! ## The device -/

structure ActionResult where
  success : Bool
  message : String
deriving DecidableEq

structure DeviceStateSnapshot where
  isolationPct : UInt8
  serviceQuarantined : Bool
  networkIsolated : Bool
  lastAction : String
deriving DecidableEq

def DeviceStateSnapshot.default : DeviceStateSnapshot where
  isolationPct := 0
  serviceQuarantined := false
  networkIsolated := false
  lastAction := ""

def actionName : ResponseAction → String
  | .observe => "observe"
  | .rateLimit => "rate-limit"
  | .quarantine => "quarantine"
  | .rollbackAndEscalate => "rollback-and-escalate"

/-- A `DeviceAction` by its methods, each of which succeeds with a message. -/
structure DeviceAction where
  execute : PolicyDecision → String
  restore : DeviceStateSnapshot → String

def succeeded (message : String) : ActionResult := ⟨true, message⟩

def throttleAdapter : DeviceAction where
  execute d := "throttle applied at " ++ toString d.isolationPct ++ "% isolation (" ++
    actionName d.action ++ ")"
  restore s := "throttle restored to " ++ toString s.isolationPct ++ "% isolation"

def quarantineAdapter : DeviceAction where
  execute d := "quarantine enforced at " ++ toString d.isolationPct ++ "% isolation (" ++
    actionName d.action ++ ")"
  restore s := "quarantine restored at " ++ toString s.isolationPct ++ "% isolation"

def isolateAdapter : DeviceAction where
  execute d := "network isolation at " ++ toString d.isolationPct ++ "% (" ++
    actionName d.action ++ ")"
  restore s := "network isolation restored at " ++ toString s.isolationPct ++ "%"

def loggingAdapter : DeviceAction where
  execute d := "logged: level=" ++ d.level.asStr ++ " action=" ++ actionName d.action ++
    " isolation=" ++ toString d.isolationPct ++ "%"
  restore s := "logged restore: isolation=" ++ toString s.isolationPct ++ "%, quarantined=" ++
    toString s.serviceQuarantined ++ ", network_isolated=" ++ toString s.networkIsolated ++
    ", last_action=" ++ s.lastAction

def restoreAdapter : DeviceAction where
  execute d := "restore adapter observed live action=" ++ actionName d.action ++ " isolation=" ++
    toString d.isolationPct ++ "%; use restore() for rollback"
  restore _ := "device state restored to nominal"

def stateForDecision (d : PolicyDecision) : DeviceStateSnapshot :=
  match d.action with
  | .observe => ⟨0, false, false, actionName d.action⟩
  | .rateLimit => ⟨d.isolationPct, false, false, actionName d.action⟩
  | .quarantine => ⟨d.isolationPct, true, false, actionName d.action⟩
  | .rollbackAndEscalate => ⟨d.isolationPct, true, true, actionName d.action⟩

structure DeviceController where
  state : DeviceStateSnapshot

namespace DeviceController

def default : DeviceController := ⟨.default⟩

def snapshot (c : DeviceController) : DeviceStateSnapshot := c.state

def applyDecision (_c : DeviceController) (d : PolicyDecision) :
    List ActionResult × DeviceController :=
  let state := stateForDecision d
  let message := match d.action with
    | .observe => restoreAdapter.restore state
    | .rateLimit => throttleAdapter.execute d
    | .quarantine => quarantineAdapter.execute d
    | .rollbackAndEscalate => isolateAdapter.execute d
  ([succeeded (loggingAdapter.execute d), succeeded message], ⟨state⟩)

def restoreSnapshot (_c : DeviceController) (s : DeviceStateSnapshot) :
    List ActionResult × DeviceController :=
  let message :=
    if s.networkIsolated then isolateAdapter.restore s
    else if s.serviceQuarantined then quarantineAdapter.restore s
    else if s.isolationPct > 0 then throttleAdapter.restore s
    else restoreAdapter.restore s
  ([succeeded message, succeeded (loggingAdapter.restore s)], ⟨s⟩)

end DeviceController

/-! ## Checkpoints -/

structure CheckpointEntry where
  baseline : PersistedBaseline
  deviceState : DeviceStateSnapshot
  timestampMs : ℕ

structure CheckpointStore where
  capacity : ℕ
  entries : RingBuffer CheckpointEntry capacity

structure RestoreOutcome where
  baselineRestored : Bool
  deviceState : DeviceStateSnapshot
  actionResults : List ActionResult

namespace CheckpointStore

def new (capacity : ℕ) : CheckpointStore := ⟨capacity, .empty CheckpointEntry capacity⟩

def pushSnapshot (c : CheckpointStore) (baseline : PersistedBaseline)
    (deviceState : DeviceStateSnapshot) (timestampMs : ℕ) : CheckpointStore :=
  ⟨c.capacity, c.entries.push ⟨baseline, deviceState, timestampMs⟩⟩

def capture (c : CheckpointStore) (detector : AnomalyDetector) (timestampMs : ℕ) :
    CheckpointStore :=
  match detector.snapshot with
  | some snapshot => c.pushSnapshot snapshot .default timestampMs
  | none => c

def latest (c : CheckpointStore) : Option CheckpointEntry := c.entries.items.getLast?

def len (c : CheckpointStore) : ℕ := c.entries.items.length

def restoreLatestWithDevice (c : CheckpointStore) (detector : AnomalyDetector)
    (device : DeviceController) : Option (RestoreOutcome × AnomalyDetector × DeviceController) :=
  c.latest.map fun entry =>
    let restored := device.restoreSnapshot entry.deviceState
    (⟨true, entry.deviceState, restored.1⟩, detector.restoreBaseline entry.baseline, restored.2)

end CheckpointStore

/-! ## Proofs -/

structure ProofEntry where
  label : String
  preDigest : String
  postDigest : String
  timestamp : String

structure WitnessBundle where
  backend : String
  label : String
  preDigest : String
  postDigest : String
  timestamp : String
  witnessHex : String
  proofHex : Option String
  verified : Bool

/-- A `ProofBackend` by its methods. -/
structure ProofBackend where
  generateWitness : ProofEntry → WitnessBundle
  verifyWitness : WitnessBundle → Bool

section

variable (sha256 : List UInt8 → List UInt8)

def witnessDigest (pre post : String) : String := sha256Hex sha256 (asBytes (pre ++ ":" ++ post))

def bundle (backend : String) (verified : Bool) (e : ProofEntry) : WitnessBundle where
  backend := backend
  label := e.label
  preDigest := e.preDigest
  postDigest := e.postDigest
  timestamp := e.timestamp
  witnessHex := witnessDigest sha256 e.preDigest e.postDigest
  proofHex := none
  verified := verified

def digestBackend : ProofBackend where
  generateWitness := bundle sha256 "sha256-digest" true
  verifyWitness w := w.witnessHex = witnessDigest sha256 w.preDigest w.postDigest

def zkStubBackend : ProofBackend where
  generateWitness := bundle sha256 "zk-stub" false
  verifyWitness _ := false

def ProofEntry.record (label : String) (pre post : List UInt8) (timestamp : String) :
    ProofEntry :=
  ⟨label, sha256Hex sha256 pre, sha256Hex sha256 post, timestamp⟩

end

/-! ## The control plane -/

structure ControlPlane where
  detector : AnomalyDetector
  device : DeviceController
  checkpoints : CheckpointStore
  proofs : List ProofEntry
  replay : RingBuffer TelemetrySample 200

/-- What the requests under `/api/control` do, and what is done for each analyzed sample and for
each sample that the server collects of its own host, under one lock each. -/
inductive ControlCall where
  | analyze (sample : TelemetrySample) (decision : PolicyDecision) (now : String)
  | collect (sample : TelemetrySample)
  | mode (mode : AdaptationMode)
  | resetBaseline
  | checkpoint (timestampMs : ℕ)
  | restoreCheckpoint

namespace ControlPlane

def new (config : DetectorConfig) : ControlPlane where
  detector := .new config
  device := .default
  checkpoints := .new 10
  proofs := []
  replay := .empty TelemetrySample 200

variable (sha256 : List UInt8 → List UInt8) (toVec : PersistedBaseline → List UInt8)
  (fixed : ℕ → ℚ → String)

/-- The snapshot as JSON, or nothing. -/
def snapshotBytes (d : AnomalyDetector) : List UInt8 := (d.snapshot.map toVec).getD []

def analyze (cp : ControlPlane) (sample : TelemetrySample) (decision : PolicyDecision)
    (now : String) : ControlPlane :=
  let detector := (cp.detector.evaluate fixed sample).2
  { cp with
    detector
    device := (cp.device.applyDecision decision).2
    proofs := cp.proofs ++ [.record sha256 "baseline_update" (snapshotBytes toVec cp.detector)
      (snapshotBytes toVec detector) now]
    replay := cp.replay.push sample }

/-- The answer is the number of checkpoints, whether one was added or not. -/
def checkpoint (cp : ControlPlane) (timestampMs : ℕ) : ℕ × ControlPlane :=
  let checkpoints :=
    match cp.detector.snapshot with
    | some snapshot => cp.checkpoints.pushSnapshot snapshot cp.device.snapshot timestampMs
    | none => cp.checkpoints
  (checkpoints.len, { cp with checkpoints })

/-- Without a checkpoint the answer is 404. -/
def restoreCheckpoint (cp : ControlPlane) : Option RestoreOutcome × ControlPlane :=
  match cp.checkpoints.restoreLatestWithDevice cp.detector cp.device with
  | some (outcome, detector, device) => (some outcome, { cp with detector, device })
  | none => (none, cp)

def after (cp : ControlPlane) : ControlCall → ControlPlane
  | .analyze sample decision now => cp.analyze sha256 toVec fixed sample decision now
  | .collect sample => { cp with detector := (cp.detector.evaluate fixed sample).2 }
  | .mode mode => { cp with detector := cp.detector.setAdaptation mode }
  | .resetBaseline => { cp with detector := cp.detector.resetBaseline }
  | .checkpoint timestampMs => (cp.checkpoint timestampMs).2
  | .restoreCheckpoint => cp.restoreCheckpoint.2

/-- What the call adds to the checkpoints. -/
def saves (cp : ControlPlane) : ControlCall → Option (PersistedBaseline × DeviceStateSnapshot)
  | .checkpoint _ => cp.detector.snapshot.map fun snapshot => (snapshot, cp.device.state)
  | _ => none

end ControlPlane

/-! ## What a restore brings back -/

theorem CheckpointStore.latest_pushSnapshot {c : CheckpointStore} (hcapacity : c.capacity ≠ 0)
    (baseline : PersistedBaseline) (deviceState : DeviceStateSnapshot) (timestampMs : ℕ) :
    (c.pushSnapshot baseline deviceState timestampMs).latest =
      some ⟨baseline, deviceState, timestampMs⟩ :=
  RingBuffer.getLast?_push hcapacity _ _

namespace ControlPlane

variable {sha256 : List UInt8 → List UInt8} {toVec : PersistedBaseline → List UInt8}
  {fixed : ℕ → ℚ → String} {cp : ControlPlane}

/-- What the latest checkpoint holds. -/
def saved (cp : ControlPlane) : Option (PersistedBaseline × DeviceStateSnapshot) :=
  cp.checkpoints.latest.map fun entry => (entry.baseline, entry.deviceState)

theorem restoreCheckpoint_of_none (h : cp.saved = none) : cp.restoreCheckpoint = (none, cp) := by
  have hlatest : cp.checkpoints.latest = none := Option.map_eq_none_iff.mp h
  unfold restoreCheckpoint CheckpointStore.restoreLatestWithDevice
  rw [hlatest]
  rfl

theorem restoreCheckpoint_of_some {baseline : PersistedBaseline}
    {deviceState : DeviceStateSnapshot} (h : cp.saved = some (baseline, deviceState)) :
    (cp.restoreCheckpoint.1.map RestoreOutcome.deviceState) = some deviceState ∧
      cp.restoreCheckpoint.2.detector.snapshot = some baseline ∧
      cp.restoreCheckpoint.2.device.state = deviceState ∧
      cp.restoreCheckpoint.2.checkpoints = cp.checkpoints := by
  obtain ⟨entry, hlatest, hentry⟩ := Option.map_eq_some_iff.mp h
  obtain ⟨rfl, rfl⟩ := Prod.mk.inj hentry
  unfold restoreCheckpoint CheckpointStore.restoreLatestWithDevice
  rw [hlatest]
  exact ⟨rfl, rfl, rfl, rfl⟩

theorem checkpoints_restoreCheckpoint : cp.restoreCheckpoint.2.checkpoints = cp.checkpoints := by
  cases h : cp.saved with
  | none => rw [restoreCheckpoint_of_none h]
  | some saved => exact (restoreCheckpoint_of_some h).2.2.2

theorem capacity_after (call : ControlCall) :
    (cp.after sha256 toVec fixed call).checkpoints.capacity = cp.checkpoints.capacity := by
  cases call with
  | checkpoint timestampMs =>
    unfold after checkpoint
    cases cp.detector.snapshot <;> rfl
  | restoreCheckpoint => exact congrArg CheckpointStore.capacity checkpoints_restoreCheckpoint
  | _ => rfl

/-- The latest checkpoint is what was saved last. -/
theorem saved_after (hcapacity : cp.checkpoints.capacity ≠ 0) (call : ControlCall) :
    (cp.after sha256 toVec fixed call).saved = (cp.saves call).or cp.saved := by
  cases call with
  | checkpoint timestampMs =>
    unfold after checkpoint saves saved
    cases cp.detector.snapshot with
    | none => rfl
    | some snapshot =>
      dsimp only
      rw [CheckpointStore.latest_pushSnapshot hcapacity]
      rfl
  | restoreCheckpoint =>
    exact congrArg (fun c : CheckpointStore => c.latest.map fun entry =>
      (entry.baseline, entry.deviceState)) checkpoints_restoreCheckpoint
  | _ => rfl

variable (sha256 toVec fixed)

theorem capacity_run (config : DetectorConfig) (calls : List ControlCall) :
    (run (after sha256 toVec fixed) (new config) calls).checkpoints.capacity ≠ 0 := by
  induction calls using List.reverseRecOn with
  | nil => exact Nat.succ_ne_zero 9
  | append_singleton calls call ih =>
    rw [run_append, run_cons, run_nil, capacity_after]
    exact ih

theorem saved_run (config : DetectorConfig) (before later : List ControlCall)
    (hlater : Along (after sha256 toVec fixed) (fun cp call => cp.saves call = none)
      (run (after sha256 toVec fixed) (new config) before) later) :
    (run (after sha256 toVec fixed) (new config) (before ++ later)).saved =
      (run (after sha256 toVec fixed) (new config) before).saved := by
  induction later generalizing before with
  | nil => rw [List.append_nil]
  | cons call later ih =>
    have hcapacity := capacity_run sha256 toVec fixed config before
    have hstep := ih (before ++ [call]) (by rw [run_append]; exact hlater.2)
    rw [List.append_assoc, List.singleton_append] at hstep
    rw [hstep, run_append, run_cons, run_nil, saved_after hcapacity, hlater.1, Option.none_or]

/-- Restoring brings back the baseline and the device as the last checkpoint found them that saved
anything, whatever has been called since; a checkpoint that was asked for without a baseline is
passed over, although it is answered like any other.  Where none saved anything, nothing changes. -/
theorem restoreCheckpoint_run (config : DetectorConfig) (calls : List ControlCall) :
    (∀ before call later baseline deviceState, calls = before ++ call :: later →
      (run (after sha256 toVec fixed) (new config) before).saves call =
        some (baseline, deviceState) →
      Along (after sha256 toVec fixed) (fun cp call => cp.saves call = none)
        (run (after sha256 toVec fixed) (new config) (before ++ [call])) later →
      let restored := (run (after sha256 toVec fixed) (new config) calls).restoreCheckpoint
      restored.1.map RestoreOutcome.deviceState = some deviceState ∧
        restored.2.detector.snapshot = some baseline ∧
        restored.2.device.state = deviceState) ∧
    (Along (after sha256 toVec fixed) (fun cp call => cp.saves call = none) (new config) calls →
      (run (after sha256 toVec fixed) (new config) calls).restoreCheckpoint =
        (none, run (after sha256 toVec fixed) (new config) calls)) := by
  constructor
  · rintro before call later baseline deviceState rfl hsaves hlater
    have hsaved := saved_run sha256 toVec fixed config (before ++ [call]) later hlater
    rw [List.append_assoc, List.singleton_append, run_append _ before [call], run_cons, run_nil,
      saved_after (capacity_run sha256 toVec fixed config before), hsaves, Option.some_or] at hsaved
    obtain ⟨houtcome, hdetector, hdevice, -⟩ := restoreCheckpoint_of_some hsaved
    exact ⟨houtcome, hdetector, hdevice⟩
  · intro hnone
    have hsaved := saved_run sha256 toVec fixed config [] calls hnone
    exact restoreCheckpoint_of_none hsaved

end ControlPlane

/-! ## What the proofs record -/

def ControlCall.analyzes : ControlCall → Bool
  | .analyze _ _ _ => true
  | _ => false

/-- The calls that may change the baseline without a proof. -/
def ControlCall.moves : ControlCall → Bool
  | .collect _ => true
  | .resetBaseline => true
  | .restoreCheckpoint => true
  | _ => false

/-- The calls up to the last one that analyzed a sample. -/
def upToLast (calls : List ControlCall) : List ControlCall :=
  calls.rdropWhile fun call => !call.analyzes

namespace ControlPlane

variable (sha256 : List UInt8 → List UInt8) (toVec : PersistedBaseline → List UInt8)
  (fixed : ℕ → ℚ → String) (config : DetectorConfig)

def digest (cp : ControlPlane) : String := sha256Hex sha256 (snapshotBytes toVec cp.detector)

/-- Each proof starts where the one before ended. -/
def Unbroken (proofs : List ProofEntry) : Prop :=
  proofs.IsChain fun p q => p.postDigest = q.preDigest

theorem unbroken_concat {proofs : List ProofEntry} {q : ProofEntry} : Unbroken (proofs ++ [q]) ↔
    Unbroken proofs ∧ ∀ p ∈ proofs.getLast?, p.postDigest = q.preDigest := by
  unfold Unbroken
  rw [List.isChain_append]
  simp

theorem proofs_after_of_analyzes {call : ControlCall} (h : call.analyzes = true)
    (cp : ControlPlane) : ∃ q, (cp.after sha256 toVec fixed call).proofs = cp.proofs ++ [q] ∧
      q.preDigest = cp.digest sha256 toVec ∧
      q.postDigest = (cp.after sha256 toVec fixed call).digest sha256 toVec := by
  cases call with
  | analyze sample decision now => exact ⟨_, rfl, rfl, rfl⟩
  | _ => cases h

theorem proofs_restoreCheckpoint (cp : ControlPlane) :
    cp.restoreCheckpoint.2.proofs = cp.proofs := by
  unfold restoreCheckpoint
  cases cp.checkpoints.restoreLatestWithDevice cp.detector cp.device <;> rfl

theorem proofs_after_of_not {call : ControlCall} (h : call.analyzes = false) (cp : ControlPlane) :
    (cp.after sha256 toVec fixed call).proofs = cp.proofs := by
  cases call with
  | analyze sample decision now => cases h
  | restoreCheckpoint => exact proofs_restoreCheckpoint cp
  | _ => rfl

/-- The last proof ends where the last analyzed sample left the baseline. -/
theorem getLast?_proofs (calls : List ControlCall) :
    (run (after sha256 toVec fixed) (new config) calls).proofs.getLast?.map
        ProofEntry.postDigest =
      if upToLast calls = [] then none
      else some ((run (after sha256 toVec fixed) (new config) (upToLast calls)).digest sha256
        toVec) := by
  induction calls using List.reverseRecOn with
  | nil => rfl
  | append_singleton calls call ih =>
    rw [run_append, run_cons, run_nil]
    cases h : call.analyzes with
    | false =>
      have hlast : upToLast (calls ++ [call]) = upToLast calls :=
        List.rdropWhile_concat_pos _ _ _ (by rw [h]; rfl)
      rw [proofs_after_of_not sha256 toVec fixed h, hlast, ih]
    | true =>
      have hlast : upToLast (calls ++ [call]) = calls ++ [call] :=
        List.rdropWhile_concat_neg _ _ _ (by rw [h]; exact Bool.false_ne_true)
      obtain ⟨q, hproofs, -, hpost⟩ := proofs_after_of_analyzes sha256 toVec fixed h
        (run (after sha256 toVec fixed) (new config) calls)
      rw [hproofs, hlast, List.getLast?_concat, Option.map_some, hpost,
        if_neg (List.append_ne_nil_of_right_ne_nil calls (List.cons_ne_nil call [])), run_append,
        run_cons, run_nil]

theorem unbroken_iff (calls : List ControlCall) :
    Unbroken (run (after sha256 toVec fixed) (new config) calls).proofs ↔
      ∀ before call later, calls = before ++ call :: later → call.analyzes = true →
        upToLast before ≠ [] →
        (run (after sha256 toVec fixed) (new config) (upToLast before)).digest sha256 toVec =
          (run (after sha256 toVec fixed) (new config) before).digest sha256 toVec := by
  induction calls using List.reverseRecOn with
  | nil =>
    refine iff_of_true List.isChain_nil ?_
    intro before call later h
    simp at h
  | append_singleton calls call ih =>
    rw [run_append, run_cons, run_nil]
    cases hcall : call.analyzes with
    | false =>
      rw [proofs_after_of_not sha256 toVec fixed hcall, ih, forall_split_concat
        (P := fun before call => call.analyzes = true → upToLast before ≠ [] → _)]
      refine (and_iff_left fun h => ?_).symm
      rw [hcall] at h
      cases h
    | true =>
      obtain ⟨q, hproofs, hpre, -⟩ := proofs_after_of_analyzes sha256 toVec fixed hcall
        (run (after sha256 toVec fixed) (new config) calls)
      rw [hproofs, unbroken_concat, ih, hpre, forall_split_concat
        (P := fun before call => call.analyzes = true → upToLast before ≠ [] → _)]
      refine and_congr_right fun _ => ?_
      have hlast := getLast?_proofs sha256 toVec fixed config calls
      split_ifs at hlast with hnone
      · rw [Option.map_eq_none_iff] at hlast
        rw [hlast]
        exact iff_of_true (fun p hp => by cases hp) fun _ hne => absurd hnone hne
      · obtain ⟨p, hp, hpost⟩ := Option.map_eq_some_iff.mp hlast
        rw [hp, ← hpost]
        constructor
        · exact fun h _ _ => h p rfl
        · intro h p' hp'
          obtain rfl := Option.some.inj hp'
          exact h hcall hnone

theorem digest_after {call : ControlCall} (hanalyzes : call.analyzes = false)
    (hmoves : call.moves = false) (cp : ControlPlane) :
    (cp.after sha256 toVec fixed call).digest sha256 toVec = cp.digest sha256 toVec := by
  cases call with
  | analyze sample decision now => cases hanalyzes
  | collect sample => cases hmoves
  | resetBaseline => cases hmoves
  | restoreCheckpoint => cases hmoves
  | mode mode => rfl
  | checkpoint timestampMs => rfl

theorem digest_run {calls : List ControlCall} (hanalyzes : ∀ call ∈ calls, call.analyzes = false)
    (hmoves : ∀ call ∈ calls, call.moves = false) (cp : ControlPlane) :
    (run (after sha256 toVec fixed) cp calls).digest sha256 toVec = cp.digest sha256 toVec :=
  run_invariant (I := fun cp' => cp'.digest sha256 toVec = cp.digest sha256 toVec)
    (P := fun _ call => call.analyzes = false ∧ call.moves = false)
    (fun cp' _ h hcall => (digest_after sha256 toVec fixed hcall.1 hcall.2 cp').trans h) rfl
    (along_of_forall (fun call hcall _ => ⟨hanalyzes call hcall, hmoves call hcall⟩) cp)

/-- The proofs are a chain from one baseline to the next, with a gap exactly where the digest of
the baseline has changed between two analyzed samples; only a reset, a restore and the samples of
the host itself do that. -/
theorem unbroken_proofs (calls : List ControlCall) :
    (Unbroken (run (after sha256 toVec fixed) (new config) calls).proofs ↔
      ∀ before call later, calls = before ++ call :: later → call.analyzes = true →
        upToLast before ≠ [] →
        (run (after sha256 toVec fixed) (new config) (upToLast before)).digest sha256 toVec =
          (run (after sha256 toVec fixed) (new config) before).digest sha256 toVec) ∧
    ((∀ call ∈ calls, call.moves = false) →
      Unbroken (run (after sha256 toVec fixed) (new config) calls).proofs) := by
  have hiff := unbroken_iff sha256 toVec fixed config calls
  refine ⟨hiff, fun hmoves => hiff.mpr ?_⟩
  rintro before call later rfl - -
  have hsplit : upToLast before ++ before.rtakeWhile (fun call => !call.analyzes) = before :=
    List.rdropWhile_append_rtakeWhile ..
  have hbetween : ∀ call ∈ before.rtakeWhile (fun call => !call.analyzes),
      call.analyzes = false := by
    intro call hcall
    have hnot := List.mem_rtakeWhile_imp (p := fun call : ControlCall => !call.analyzes) hcall
    simpa using hnot
  have hrun := digest_run sha256 toVec fixed hbetween (fun call hcall => hmoves call
    (List.mem_append_left _ ((List.rtakeWhile_suffix _ _).subset hcall)))
    (run (after sha256 toVec fixed) (new config) (upToLast before))
  rw [← run_append, hsplit] at hrun
  exact hrun.symm

end ControlPlane

/-! ## What an exported witness shows -/

/-- The two digests of a bundle, which its witness covers. -/
def WitnessBundle.digests (w : WitnessBundle) : String × String := (w.preDigest, w.postDigest)

def ProofEntry.digests (e : ProofEntry) : String × String := (e.preDigest, e.postDigest)

/-- What is hashed for two digests. -/
def witnessText (digests : String × String) : List UInt8 := asBytes (digests.1 ++ ":" ++ digests.2)

/-- No colon in either digest. -/
def ProofEntry.Plain (e : ProofEntry) : Prop :=
  ':' ∉ e.preDigest.toList ∧ ':' ∉ e.postDigest.toList

def exportWitnesses (proofs : List ProofEntry) (backend : ProofBackend) : List WitnessBundle :=
  proofs.map backend.generateWitness

section

variable {sha256 : List UInt8 → List UInt8} {e : ProofEntry} {w : WitnessBundle}

theorem ProofEntry.plain_record (label : String) (pre post : List UInt8) (timestamp : String) :
    (ProofEntry.record sha256 label pre post timestamp).Plain :=
  ⟨notMem_hexEncode (by decide) _, notMem_hexEncode (by decide) _⟩

theorem witnessText_injective (he : e.Plain) {digests : String × String}
    (h : witnessText digests = witnessText e.digests) : digests = e.digests := by
  have htext (a b : String) : (a ++ ":" ++ b).toList = a.toList ++ ':' :: b.toList := by simp
  have hlists := congrArg String.toList (asBytes_injective h)
  rw [htext, htext] at hlists
  -- one colon in all, so none before it
  have hcount := congrArg (List.count ':') hlists
  rw [List.count_append, List.count_append, List.count_cons_self, List.count_cons_self,
    ProofEntry.digests, List.count_eq_zero_of_not_mem he.1, List.count_eq_zero_of_not_mem he.2]
    at hcount
  have hfirst : ':' ∉ digests.1.toList := List.count_eq_zero.mp (by omega)
  obtain ⟨hpre, hpost⟩ := fields_unique_of_not_mem hlists hfirst he.1
  exact Prod.ext (String.toList_injective hpre) (String.toList_injective hpost)

theorem verifyWitness_iff (he : e.Plain)
    (hinj : Set.InjOn sha256 {witnessText w.digests, witnessText e.digests})
    (hwitness : w.witnessHex = ((digestBackend sha256).generateWitness e).witnessHex) :
    (digestBackend sha256).verifyWitness w = true ↔ w.digests = e.digests := by
  change decide (w.witnessHex = witnessDigest sha256 w.preDigest w.postDigest) = true ↔ _
  rw [decide_eq_true_iff, hwitness]
  constructor
  · intro hsame
    have hhash : sha256 (witnessText e.digests) = sha256 (witnessText w.digests) :=
      hexEncode_injective hsame
    exact witnessText_injective he
      (hinj (Set.mem_insert_of_mem _ rfl) (Set.mem_insert _ _) hhash).symm
  · intro hsame
    obtain ⟨hpre, hpost⟩ := Prod.mk.inj hsame
    rw [hpre, hpost]
    rfl

end

namespace ControlPlane

variable (sha256 : List UInt8 → List UInt8) (toVec : PersistedBaseline → List UInt8)
  (fixed : ℕ → ℚ → String) (config : DetectorConfig)

theorem plain_run (calls : List ControlCall) :
    ∀ e ∈ (run (after sha256 toVec fixed) (new config) calls).proofs, e.Plain := by
  induction calls using List.reverseRecOn with
  | nil => exact fun e he => absurd he List.not_mem_nil
  | append_singleton calls call ih =>
    rw [run_append, run_cons, run_nil]
    generalize run (after sha256 toVec fixed) (new config) calls = cp at ih ⊢
    intro e he
    cases hcall : call.analyzes with
    | false =>
      rw [proofs_after_of_not sha256 toVec fixed hcall] at he
      exact ih e he
    | true =>
      cases call with
      | analyze sample decision now =>
        rcases List.mem_append.mp he with hold | hnew
        · exact ih e hold
        · rw [List.mem_singleton.mp hnew]
          exact ProofEntry.plain_record ..
      | _ => cases hcall

/-- An export of the proofs verifies.  Where bundles are changed but for their witnesses, all of
them verify if and only if no digest is changed; a label, a time and what a bundle says of itself
are not covered. -/
theorem exported_verify (calls : List ControlCall) :
    let exported := exportWitnesses (run (after sha256 toVec fixed) (new config) calls).proofs
      (digestBackend sha256)
    (∀ w ∈ exported, (digestBackend sha256).verifyWitness w = true) ∧
      ∀ changed : List WitnessBundle,
        changed.map WitnessBundle.witnessHex = exported.map WitnessBundle.witnessHex →
        Set.InjOn sha256 {x | ∃ w ∈ changed ++ exported, witnessText w.digests = x} →
          ((∀ w ∈ changed, (digestBackend sha256).verifyWitness w = true) ↔
            changed.map WitnessBundle.digests = exported.map WitnessBundle.digests) := by
  have hplain := plain_run sha256 toVec fixed config calls
  generalize (run (after sha256 toVec fixed) (new config) calls).proofs = proofs at hplain
  dsimp only
  refine ⟨?_, ?_⟩
  · intro w hw
    obtain ⟨e, -, rfl⟩ := List.mem_map.mp hw
    exact decide_eq_true rfl
  · induction proofs with
    | nil =>
      intro changed hwitness hinj
      rw [List.map_eq_nil_iff.mp hwitness]
      simp [exportWitnesses]
    | cons e proofs ih =>
      intro changed hwitness hinj
      cases changed with
      | nil => simp [exportWitnesses] at hwitness
      | cons w changed =>
        obtain ⟨hfirst, hrest⟩ := List.cons.inj hwitness
        have hpair : {witnessText w.digests, witnessText e.digests} ⊆ {x | ∃ w' ∈ w :: changed ++
            exportWitnesses (e :: proofs) (digestBackend sha256), witnessText w'.digests = x} := by
          rintro x (rfl | rfl)
          · exact ⟨w, List.mem_cons_self, rfl⟩
          · exact ⟨_, List.mem_append_right _ List.mem_cons_self, rfl⟩
        have hothers := ih (fun e' he' => hplain e' (List.mem_cons_of_mem _ he')) changed hrest
          (hinj.mono ?_)
        · rw [List.forall_mem_cons,
            verifyWitness_iff (hplain e List.mem_cons_self) (hinj.mono hpair) hfirst, hothers]
          exact List.cons_eq_cons.symm
        · rintro x ⟨w', hw', rfl⟩
          refine ⟨w', ?_, rfl⟩
          rcases List.mem_append.mp hw' with hmem | hmem
          · exact List.mem_append_left _ (List.mem_cons_of_mem _ hmem)
          · exact List.mem_append_right _ (List.mem_cons_of_mem _ hmem)

end ControlPlane

end Wardex.Runtime
