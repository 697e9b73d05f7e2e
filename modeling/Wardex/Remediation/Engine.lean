import Mathlib.Algebra.GroupWithZero.Nat
import Wardex.Enrollment.Registry
import Wardex.Remediation.Commands

/-! The remediation engine and the rollback of a change review through it; what the report of a
rollback says about its commands: which were attempted, and whether all of them ran. -/

namespace Wardex.Remediation

open Wardex.Lib Wardex.PlaybookDsl

section

inductive RemediationStatus where
  | success
  | partialSuccess
  | failed
  | rolledBack
  | skipped
  | pendingApproval
deriving DecidableEq

structure RemediationSnapshot where
  snapshotId : String
  action : RemediationAction
  platform : RemediationPlatform
  hostname : String
  backedUpFiles : List String
  priorState : List (String × String)
  takenAt : Nat

structure RemediationResult where
  action : RemediationAction
  status : RemediationStatus
  commandsRun : List RemediationCommand
  snapshotId : Option String
  output : Option String
  error : Option String
  durationMs : Nat

structure RemediationEngine where
  snapshots : List RemediationSnapshot
  results : List RemediationResult
  approvalRequired : List RemediationAction
  nextSnapshotId : Nat

namespace RemediationEngine

def new : RemediationEngine where
  snapshots := []
  results := []
  approvalRequired := [.disableAccount "", .custom "" "" []]
  nextSnapshotId := 1

def recordSnapshot (engine : RemediationEngine) (action : RemediationAction)
    (platform : RemediationPlatform) (hostname : String) (backedUp : List String)
    (priorState : List (String × String)) (nowMs : Nat) : RemediationEngine × String :=
  let id := "snap-" ++ toString engine.nextSnapshotId
  ({ engine with
    nextSnapshotId := engine.nextSnapshotId + 1
    snapshots := engine.snapshots ++
      [⟨id, action, platform, hostname, backedUp, priorState, nowMs⟩] }, id)

def recordResult (engine : RemediationEngine) (result : RemediationResult) : RemediationEngine :=
  { engine with results := engine.results ++ [result] }

end RemediationEngine

structure ReviewRollbackRequest (F : Type) where
  reviewId : String
  assetId : String
  approvalChainDigest : Option String
  evidence : Value F
  platform : RemediationPlatform
  dryRun : Bool
  executeLiveCommands : Bool

structure ReviewRollbackOutcome where
  action : RemediationAction
  platform : RemediationPlatform
  snapshotId : String
  commands : List RemediationCommand
  commandExecutions : List RemediationCommandExecution
  executionMode : String
  result : RemediationResult
  proofStatus : String
  recoveryStatus : String

/-- The host: its operating system, how commands run on it, and its clock in milliseconds. -/
structure RemediationHost where
  platform : Option RemediationPlatform
  os : RemediationCommand → CommandRun
  nowMs : Int

def executionStatus (executions : List RemediationCommandExecution) : RemediationStatus :=
  let failures := executions.countP RemediationCommandExecution.unsuccessful
  if failures = 0 then .rolledBack
  else if failures < executions.length then .partialSuccess
  else .failed

/-- `{:?}` of an exit code. -/
def debugExitCode : Option Int → String
  | none => "None"
  | some code => "Some(" ++ toString code ++ ")"

/-- The message of the first unsuccessful command. -/
def executionError (executions : List RemediationCommandExecution) : Option String :=
  (executions.find? RemediationCommandExecution.unsuccessful).map fun e =>
    if trim e.stderr.toList = [] then
      e.program ++ " failed with exit code " ++ debugExitCode e.exitCode
    else e.stderr

def executionOutput (mode : String) (failures : Nat) : String :=
  if mode = "dry_run" then "rollback dry-run planned through remediation adapter"
  else if mode = "executed" ∧ failures = 0 then "rollback executed through remediation adapter"
  else if mode = "executed" then
    "rollback execution attempted through remediation adapter with failures"
  else if mode = "recorded_platform_unavailable" then
    "rollback execution recorded; local remediation executor unavailable for requested platform"
  else if mode = "recorded_no_commands" then
    "rollback execution recorded; rollback action produced no commands for requested platform"
  else "rollback execution recorded through remediation adapter"

def executeReviewRollback {F : Type} (host : RemediationHost) (engine : RemediationEngine)
    (request : ReviewRollbackRequest F) :
    RemediationEngine × Except String ReviewRollbackOutcome :=
  match rollbackActionFromEvidence request.evidence with
  | .error e => (engine, .error e)
  | .ok action =>
    let commands := platformCommands action request.platform
    let live := !request.dryRun && request.executeLiveCommands &&
      host.platform = some request.platform && commands ≠ []
    let executions := if live then executeCommands host.os commands else []
    let status := executionStatus executions
    let mode :=
      if request.dryRun then "dry_run"
      else if commands = [] then "recorded_no_commands"
      else if live then "executed"
      else if request.executeLiveCommands then "recorded_platform_unavailable"
      else "recorded"
    let (engine, snapshotId) := engine.recordSnapshot action request.platform request.assetId []
      [("review_id", request.reviewId),
        ("approval_chain_digest", request.approvalChainDigest.getD "")] host.nowMs.toNat
    let result : RemediationResult := {
      action := action
      status := status
      commandsRun := commands
      snapshotId := some snapshotId
      output := some (executionOutput mode
        (executions.countP RemediationCommandExecution.unsuccessful))
      error := executionError executions
      durationMs := (executions.map RemediationCommandExecution.durationMs).sum }
    let unsuccessful := status = .failed ∨ status = .partialSuccess
    (engine.recordResult result, .ok {
      action := action
      platform := request.platform
      snapshotId := snapshotId
      commands := commands
      commandExecutions := executions
      executionMode := mode
      result := result
      proofStatus :=
        if request.dryRun then "dry_run_verified"
        else if unsuccessful then "execution_failed"
        else "executed"
      recoveryStatus :=
        if request.dryRun then "verified" else if unsuccessful then "failed" else "executed" })

/-- A rollback whose evidence names no action leaves the engine as it was. -/
theorem executeReviewRollback_error {F : Type} {host : RemediationHost}
    {engine engine' : RemediationEngine} {request : ReviewRollbackRequest F} {e : String}
    (h : executeReviewRollback host engine request = (engine', .error e)) :
    engine' = engine ∧ rollbackActionFromEvidence request.evidence = .error e := by
  unfold executeReviewRollback at h
  cases haction : rollbackActionFromEvidence request.evidence with
  | error e' =>
    rw [haction] at h
    obtain ⟨rfl, he⟩ := Prod.mk.inj h
    exact ⟨rfl, congrArg _ (Except.error.inj he)⟩
  | ok action =>
    rw [haction] at h
    exact nomatch (Prod.mk.inj h).2

theorem executeReviewRollback_ok {F : Type} {host : RemediationHost}
    {engine engine' : RemediationEngine} {request : ReviewRollbackRequest F}
    {outcome : ReviewRollbackOutcome}
    (h : executeReviewRollback host engine request = (engine', .ok outcome)) :
    ∃ action, rollbackActionFromEvidence request.evidence = .ok action := by
  unfold executeReviewRollback at h
  cases haction : rollbackActionFromEvidence request.evidence with
  | error e' =>
    rw [haction] at h
    exact nomatch (Prod.mk.inj h).2
  | ok action => exact ⟨action, rfl⟩

end

/-! ## The report of a rollback -/

/-! ## Attempts -/

/-- The command passes the safety filter, starts, and exits with code 0. -/
def RunsCleanly (os : RemediationCommand → CommandRun) (c : RemediationCommand) : Prop :=
  c.program ∈ allowedExecutionPrograms ∧ ∃ stdout stderr, (os c).result = .ok (0, stdout, stderr)

/-- All commands ran, in their order. -/
structure Completed (os : RemediationCommand → CommandRun) (commands : List RemediationCommand)
    (executions : List RemediationCommandExecution) : Prop where
  clean : ∀ c ∈ commands, RunsCleanly os c
  inOrder : executions = commands.map (executeCommand os)

/-- The commands were attempted in their order up to the first that did not run. -/
def Stopped (os : RemediationCommand → CommandRun) (commands : List RemediationCommand)
    (executions : List RemediationCommandExecution) : Prop :=
  ∃ ran failed rest, commands = ran ++ failed :: rest ∧ (∀ c ∈ ran, RunsCleanly os c) ∧
    ¬ RunsCleanly os failed ∧ executions = (ran ++ [failed]).map (executeCommand os)

variable {os : RemediationCommand → CommandRun} {c : RemediationCommand}
  {commands : List RemediationCommand} {executions : List RemediationCommandExecution}

theorem unsuccessful_executeCommand_iff :
    (executeCommand os c).unsuccessful = true ↔ ¬ RunsCleanly os c := by
  unfold executeCommand RunsCleanly RemediationCommandExecution.unsuccessful
  dsimp only
  by_cases hallowed : c.program ∈ allowedExecutionPrograms
  · rw [if_neg (not_not_intro hallowed)]
    cases hresult : (os c).result with
    | error e => simp
    | ok run =>
      obtain ⟨code, stdout, stderr⟩ := run
      simp [hallowed]
  · rw [if_pos hallowed]
    simp [hallowed]

theorem executeCommands_attempts (os : RemediationCommand → CommandRun)
    (commands : List RemediationCommand) :
    Completed os commands (executeCommands os commands) ∨
      Stopped os commands (executeCommands os commands) := by
  induction commands with
  | nil => exact .inl ⟨fun c hc => absurd hc List.not_mem_nil, rfl⟩
  | cons c rest ih =>
    rw [executeCommands]
    split_ifs with hfailed
    · refine .inr ⟨[], c, rest, rfl, fun c hc => absurd hc List.not_mem_nil, ?_, rfl⟩
      exact unsuccessful_executeCommand_iff.mp hfailed
    · have hclean : RunsCleanly os c := by
        by_contra hnot
        exact hfailed (unsuccessful_executeCommand_iff.mpr hnot)
      rcases ih with ⟨hrest, hall⟩ | ⟨ran, failed, rest', rfl, hran, hstop, hexecutions⟩
      · exact .inl ⟨List.forall_mem_cons.mpr ⟨hclean, hrest⟩, by rw [hall, List.map_cons]⟩
      · refine .inr
          ⟨c :: ran, failed, rest', rfl, List.forall_mem_cons.mpr ⟨hclean, hran⟩, hstop, ?_⟩
        rw [hexecutions, List.cons_append, List.map_cons]

theorem Completed.executionStatus (h : Completed os commands executions) :
    executionStatus executions = .rolledBack := by
  refine if_pos (List.countP_eq_zero.mpr fun e he hfailed => ?_)
  rw [h.inOrder] at he
  obtain ⟨c, hc, rfl⟩ := List.mem_map.mp he
  exact unsuccessful_executeCommand_iff.mp hfailed (h.clean c hc)

theorem Stopped.executionStatus (h : Stopped os commands executions) :
    executionStatus executions = .failed ∨ executionStatus executions = .partialSuccess := by
  obtain ⟨ran, failed, rest, -, -, hfailed, rfl⟩ := h
  have hcount : 0 < ((ran ++ [failed]).map (executeCommand os)).countP
      RemediationCommandExecution.unsuccessful := by
    refine List.countP_pos_iff.mpr ⟨executeCommand os failed, ?_, ?_⟩
    · exact List.mem_map_of_mem (List.mem_append_right ran List.mem_cons_self)
    · exact unsuccessful_executeCommand_iff.mpr hfailed
  unfold Remediation.executionStatus
  dsimp only
  rw [if_neg hcount.ne']
  split_ifs
  · exact .inr rfl
  · exact .inl rfl

theorem Stopped.not_completed (h : Stopped os commands executions) :
    ¬ Completed os commands executions := by
  rintro ⟨hclean, -⟩
  obtain ⟨ran, failed, rest, rfl, -, hfailed, -⟩ := h
  exact hfailed (hclean failed (List.mem_append_right ran List.mem_cons_self))

/-! ## The report -/

section

variable {F : Type}

/-- The commands are run: not for trial, with the flag set, on a host of the platform. -/
structure Live (host : RemediationHost) (request : ReviewRollbackRequest F)
    (commands : List RemediationCommand) : Prop where
  dryRun : request.dryRun = false
  flag : request.executeLiveCommands = true
  platform : host.platform = some request.platform
  commands : commands ≠ []

/-- The report says what became of the commands of its action. -/
structure HonestReport (host : RemediationHost) (request : ReviewRollbackRequest F)
    (outcome : ReviewRollbackOutcome) : Prop where
  action : rollbackActionFromEvidence request.evidence = .ok outcome.action
  commands : outcome.commands = platformCommands outcome.action request.platform
  attempted : Live host request outcome.commands →
    Completed host.os outcome.commands outcome.commandExecutions ∨
      Stopped host.os outcome.commands outcome.commandExecutions
  idle : ¬ Live host request outcome.commands → outcome.commandExecutions = []
  mode : outcome.executionMode = "executed" ↔ Live host request outcome.commands
  executed : outcome.recoveryStatus = "executed" ↔ request.dryRun = false ∧
    (Live host request outcome.commands →
      Completed host.os outcome.commands outcome.commandExecutions)

variable {host : RemediationHost} {engine : RemediationEngine} {request : ReviewRollbackRequest F}
  {outcome : ReviewRollbackOutcome}

/-- Whether the commands are run is decided as in the code. -/
def liveFlag (host : RemediationHost) (request : ReviewRollbackRequest F)
    (commands : List RemediationCommand) : Bool :=
  !request.dryRun && request.executeLiveCommands && host.platform = some request.platform &&
    commands ≠ []

theorem liveFlag_iff {commands : List RemediationCommand} :
    liveFlag host request commands = true ↔ Live host request commands := by
  simp only [liveFlag, Bool.and_eq_true, Bool.not_eq_true', decide_eq_true_eq]
  constructor
  · rintro ⟨⟨⟨hdry, hflag⟩, hplatform⟩, hcommands⟩
    exact ⟨hdry, hflag, hplatform, hcommands⟩
  · rintro ⟨hdry, hflag, hplatform, hcommands⟩
    exact ⟨⟨⟨hdry, hflag⟩, hplatform⟩, hcommands⟩

/-- What the outcome says of the commands and their execution. -/
theorem executeReviewRollback_outcome
    (h : (executeReviewRollback host engine request).2 = .ok outcome) :
    let live := liveFlag host request outcome.commands
    let status := executionStatus outcome.commandExecutions
    rollbackActionFromEvidence request.evidence = .ok outcome.action ∧
      outcome.commands = platformCommands outcome.action request.platform ∧
      outcome.commandExecutions =
        (if live then executeCommands host.os outcome.commands else []) ∧
      (outcome.executionMode = if request.dryRun then "dry_run"
        else if outcome.commands = [] then "recorded_no_commands"
        else if live then "executed"
        else if request.executeLiveCommands then "recorded_platform_unavailable"
        else "recorded") ∧
      outcome.recoveryStatus = if request.dryRun then "verified"
        else if status = .failed ∨ status = .partialSuccess then "failed" else "executed" := by
  unfold executeReviewRollback at h
  cases haction : rollbackActionFromEvidence request.evidence with
  | error e =>
    rw [haction] at h
    exact nomatch h
  | ok action =>
    rw [haction] at h
    obtain rfl := Except.ok.inj h
    exact ⟨rfl, rfl, rfl, rfl, rfl⟩

/-- **The report of a rollback.**  Commands are attempted in their order, none after the first that
does not run, and none at all in a trial; the recovery counts as executed where no attempt was made
outside a trial, or where all commands ran. -/
theorem rollback_report (h : (executeReviewRollback host engine request).2 = .ok outcome) :
    HonestReport host request outcome := by
  obtain ⟨haction, hcommands, hexecutions, hmode, hrecovery⟩ := executeReviewRollback_outcome h
  by_cases hlive : Live host request outcome.commands
  · rw [if_pos (liveFlag_iff.mpr hlive)] at hexecutions
    have hattempts := executeCommands_attempts host.os outcome.commands
    rw [← hexecutions] at hattempts
    refine ⟨haction, hcommands, fun _ => hattempts, fun hnot => absurd hlive hnot, ?_, ?_⟩
    · refine iff_of_true ?_ hlive
      rw [hmode, hlive.dryRun, if_neg hlive.commands, liveFlag_iff.mpr hlive]
      rfl
    · rw [hrecovery, hlive.dryRun]
      rcases hattempts with hcompleted | hstopped
      · refine iff_of_true ?_ ⟨rfl, fun _ => hcompleted⟩
        rw [hcompleted.executionStatus]
        rfl
      · refine iff_of_false ?_ fun hran => hstopped.not_completed (hran.2 hlive)
        rw [if_neg Bool.false_ne_true, if_pos hstopped.executionStatus]
        decide
  · rw [if_neg (liveFlag_iff.not.mpr hlive)] at hexecutions
    refine ⟨haction, hcommands, fun hnot => absurd hnot hlive, fun _ => hexecutions, ?_, ?_⟩
    · refine iff_of_false ?_ hlive
      rw [hmode, if_neg (liveFlag_iff.not.mpr hlive)]
      split_ifs <;> decide
    · rw [hrecovery, hexecutions]
      cases request.dryRun with
      | true => exact iff_of_false (by decide) fun hran => Bool.noConfusion hran.1
      | false => exact iff_of_true (by decide) ⟨rfl, fun hnot => absurd hnot hlive⟩

/-- A host on which every command runs. -/
def cleanHost : RemediationHost := ⟨some .linux, fun _ => ⟨.ok (0, "", ""), 0⟩, 0⟩

/-- The caches are to be flushed on a Linux host. -/
def flushRequest (live : Bool) : ReviewRollbackRequest Unit where
  reviewId := "review-1"
  assetId := "host-1"
  approvalChainDigest := none
  evidence := .object []
  platform := .linux
  dryRun := false
  executeLiveCommands := live

theorem rollback_report_flush : ∃ outcome,
    (executeReviewRollback cleanHost .new (flushRequest true)).2 = .ok outcome ∧
      HonestReport cleanHost (flushRequest true) outcome := ⟨_, rfl, rollback_report rfl⟩

/-- Without the flag nothing is run, and the recovery counts as executed. -/
theorem recorded_rollback_counts_as_executed : ¬ ∀ (host : RemediationHost)
    (engine : RemediationEngine) (request : ReviewRollbackRequest Unit)
    (outcome : ReviewRollbackOutcome),
    (executeReviewRollback host engine request).2 = .ok outcome →
      outcome.recoveryStatus = "executed" →
        request.dryRun = false ∧
          Completed host.os outcome.commands outcome.commandExecutions := by
  intro h
  obtain ⟨-, hcompleted⟩ := h cleanHost .new (flushRequest false) _ rfl rfl
  exact absurd hcompleted.inOrder (List.cons_ne_nil _ _).symm

end

end Wardex.Remediation
