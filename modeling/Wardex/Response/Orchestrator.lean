import Mathlib.Algebra.Group.Int.Defs
import Mathlib.Data.List.Basic
import Wardex.Lib.Decimal
import Wardex.Lib.Visits

/-! Response requests and their orchestrator: the actions with their tiers and blast radius;
submission, approval, expiry and execution of requests, and the audit ledger.  The tier depends on
the action and on whether its target is a protected asset.  The enforcement engines act on the
operating system; they are a parameter with a state of their own. -/

namespace Wardex.Response

open Wardex.Lib

inductive ActionTier where
  | auto
  | singleApproval
  | dualApproval
  | breakGlass
deriving DecidableEq, Repr

inductive ResponseAction where
  | alert
  | isolate
  | throttle (rateLimitKbps : Nat)
  | killProcess (pid : Nat) (processName : String)
  | quarantineFile (path : String)
  | blockIp (ip : String)
  | disableAccount (username : String)
  | rollbackConfig (configName : String)
  | custom (name payload : String)
deriving DecidableEq, Repr

structure ResponseTarget where
  hostname : String
  agentUid : Option String
  assetTags : List String
deriving DecidableEq, Repr

inductive ApprovalStatus where
  | pending
  | approved
  | denied
  | expired
  | executed
  | dryRunCompleted
  | failed
deriving DecidableEq, Repr

inductive ApprovalDecision where
  | approve
  | deny
deriving DecidableEq, Repr

structure ApprovalRecord where
  approver : String
  decision : ApprovalDecision
  timestamp : String
  comment : Option String
deriving DecidableEq, Repr

structure BlastRadius where
  affectedServices : Nat
  affectedEndpoints : Nat
  riskLevel : String
  impactSummary : String
deriving DecidableEq, Repr

structure ResponseRequest where
  id : String
  action : ResponseAction
  target : ResponseTarget
  reason : String
  severity : String
  tier : ActionTier
  status : ApprovalStatus
  requestedAt : String
  requestedBy : String
  approvals : List ApprovalRecord
  dryRun : Bool
  blastRadius : Option BlastRadius
  isProtectedAsset : Bool
deriving DecidableEq, Repr

/-! ## Tiers -/

def determineTier (isProtected : Bool) : ResponseAction → ActionTier
  | .alert => .auto
  | .throttle _ => if isProtected then .singleApproval else .auto
  | .killProcess .. | .quarantineFile _ => if isProtected then .dualApproval else .singleApproval
  | .isolate | .blockIp _ => if isProtected then .breakGlass else .singleApproval
  | .disableAccount _ => if isProtected then .breakGlass else .dualApproval
  | .rollbackConfig _ => .singleApproval
  | .custom .. => if isProtected then .dualApproval else .singleApproval

/-- The position of the variant, as `std::mem::discriminant` prints it. -/
def ResponseAction.discriminant : ResponseAction → Nat
  | .alert => 0
  | .isolate => 1
  | .throttle _ => 2
  | .killProcess .. => 3
  | .quarantineFile _ => 4
  | .blockIp _ => 5
  | .disableAccount _ => 6
  | .rollbackConfig _ => 7
  | .custom .. => 8

def assessBlastRadius (isProtected : Bool) (action : ResponseAction) (target : ResponseTarget) :
    BlastRadius :=
  let severe := if isProtected then "critical" else "high"
  let (services, endpoints, risk) := match action with
    | .alert => (0, 0, "low")
    | .throttle _ => (1, 1, "low")
    | .killProcess .. => (1, 1, "medium")
    | .quarantineFile _ => (1, 1, "medium")
    | .blockIp _ => (3, 5, severe)
    | .isolate => (5, 1, severe)
    | .disableAccount _ => (10, 10, "critical")
    | .rollbackConfig _ => (2, 1, "medium")
    | .custom .. => (1, 1, "medium")
  { affectedServices := services
    affectedEndpoints := endpoints
    riskLevel := risk
    impactSummary := "Action Discriminant(" ++ toString action.discriminant ++ ") on " ++
      target.hostname ++ " may affect " ++ toString services ++ " services across " ++
      toString endpoints ++ " endpoints" }

/-! ## Decisions -/

def approveCount (approvals : List ApprovalRecord) : Nat :=
  (approvals.filter fun a => a.decision = .approve).length

/-- `required_approvals` in `approve`. -/
def requiredApprovals : ActionTier → Nat
  | .singleApproval => 1
  | .dualApproval => 2
  | _ => 1

/-- `{:?}` of a status. -/
def ApprovalStatus.debug : ApprovalStatus → String
  | .pending => "Pending"
  | .approved => "Approved"
  | .denied => "Denied"
  | .expired => "Expired"
  | .executed => "Executed"
  | .dryRunCompleted => "DryRunCompleted"
  | .failed => "Failed"

namespace ResponseRequest

/-- What a decision does to the request it is about; `requestId` is the id it was asked
under. -/
def applyDecision (req : ResponseRequest) (requestId : String) (record : ApprovalRecord) :
    Except String ResponseRequest :=
  if req.status ≠ .pending then
    .error ("Request " ++ requestId ++ " is not pending (status: " ++ req.status.debug ++ ")")
  else if record.decision = .deny then
    .ok { req with status := .denied, approvals := req.approvals ++ [record] }
  else if record.approver = req.requestedBy then
    .error "Requester cannot approve their own response request"
  else if req.approvals.any fun a => a.approver = record.approver then
    .error "Same approver cannot approve twice"
  else
    let approvals := req.approvals ++ [record]
    if approveCount approvals ≥ requiredApprovals req.tier then
      .ok { req with
        approvals := approvals
        status := if req.dryRun then .dryRunCompleted else .approved }
    else .ok { req with approvals := approvals }

end ResponseRequest

/-- The status after an attempt at enforcement. -/
def outcome (success : Bool) : ApprovalStatus := if success then .executed else .failed

/-! ## The orchestrator -/

structure EnforcementResult where
  action : String
  success : Bool
  detail : String
  rollbackCommand : Option String
deriving DecidableEq, Repr

structure ProcessTarget where
  pid : Nat
  name : String
  user : String
deriving DecidableEq, Repr

/-- The three engines; `σ` is their state and that of the system they act on. -/
structure Enforcers (σ : Type) where
  killProcess : ProcessTarget → σ → EnforcementResult × σ
  blockAll : String → σ → EnforcementResult × σ
  rateLimit : String → Nat → σ → EnforcementResult × σ
  quarantinePath : String → σ → EnforcementResult × σ

def unsupported (what why : String) : EnforcementResult where
  action := what
  success := false
  detail := "not executed: " ++ why
  rollbackCommand := none

def enforceAction {σ : Type} (env : Enforcers σ) (action : ResponseAction)
    (target : ResponseTarget) (s : σ) : EnforcementResult × σ :=
  match action with
  | .killProcess pid processName =>
    env.killProcess { pid := pid, name := processName, user := "" } s
  | .isolate => env.blockAll target.hostname s
  | .throttle rateLimitKbps => env.rateLimit target.hostname rateLimitKbps s
  | .quarantineFile path => env.quarantinePath path s
  | .alert =>
    ({ action := "alert", success := true,
       detail := "Alert notification recorded for " ++ target.hostname,
       rollbackCommand := none }, s)
  | .blockIp ip => (unsupported ("block_ip(" ++ ip ++ ")")
      "no network ACL/firewall backend is wired for IP blocking on this node", s)
  | .disableAccount username => (unsupported ("disable_account(" ++ username ++ ")")
      "no identity-provider backend is wired for account disabling on this node", s)
  | .rollbackConfig configName => (unsupported ("rollback_config(" ++ configName ++ ")")
      "no configuration-management backend is wired for config rollback on this node", s)
  | .custom name _ => (unsupported ("custom(" ++ name ++ ")")
      "custom actions have no automated enforcement backend", s)

/-- Only the hostname of a protected asset is read. -/
structure ProtectedAsset where
  hostname : String
deriving DecidableEq, Repr

/-- A ledger entry keeps the action where the source keeps its debug text; the context,
simulation and command texts that are worked out from the request are left out. -/
structure ResponseAuditEntry where
  requestId : String
  action : ResponseAction
  targetHostname : String
  tier : ActionTier
  status : ApprovalStatus
  timestamp : String
  dryRun : Bool
  approvals : List ApprovalRecord
  actor : String
  reason : String
  executionResult : Option String
deriving DecidableEq, Repr

/-- What happens to a stored request: it takes a status, it receives a decision, or
`enforce_action` is invoked for it. -/
inductive Happening where
  | status (s : ApprovalStatus)
  | decision (record : ApprovalRecord)
  | enforcement
deriving DecidableEq, Repr

/-- `trace` tells what has happened to each stored request so far, in order, by its position;
no method reads it. -/
structure ResponseOrchestrator (σ : Type) where
  requests : List ResponseRequest
  protectedAssets : List ProtectedAsset
  auditLedger : List ResponseAuditEntry
  approvalSlaSecs : Nat
  enforcers : σ
  trace : List (Nat × Happening)

namespace ResponseOrchestrator

variable {σ : Type}

def new (enforcers : σ) : ResponseOrchestrator σ where
  requests := []
  protectedAssets := []
  auditLedger := []
  approvalSlaSecs := 300
  enforcers := enforcers
  trace := []

def registerProtectedAsset (o : ResponseOrchestrator σ) (asset : ProtectedAsset) :
    ResponseOrchestrator σ :=
  { o with protectedAssets := o.protectedAssets ++ [asset] }

def isProtected (o : ResponseOrchestrator σ) (hostname : String) : Bool :=
  o.protectedAssets.any fun a => a.hostname = hostname

end ResponseOrchestrator

/-! ## The ledger -/

/-- The entry that `record_audit_with_result` pushes. -/
def auditEntryWithResult (req : ResponseRequest) (executionResult : Option String) :
    ResponseAuditEntry where
  requestId := req.id
  action := req.action
  targetHostname := req.target.hostname
  tier := req.tier
  status := req.status
  timestamp := req.requestedAt
  dryRun := req.dryRun
  approvals := req.approvals
  actor := req.requestedBy
  reason := req.reason
  executionResult := executionResult

/-- The entry that `record_audit_inner` pushes. -/
def auditEntryInner (req : ResponseRequest) (now : String) : ResponseAuditEntry where
  requestId := req.id
  action := req.action
  targetHostname := req.target.hostname
  tier := req.tier
  status := req.status
  timestamp := now
  dryRun := req.dryRun
  approvals := req.approvals
  actor := (req.approvals.getLast?.map ApprovalRecord.approver).getD req.requestedBy
  reason := req.reason
  executionResult := none

namespace ResponseOrchestrator

variable {σ : Type}

/-! ## Submission -/

/-- The request as `submit` stores it, up to its status. -/
def classify (o : ResponseOrchestrator σ) (request : ResponseRequest) : ResponseRequest :=
  let isProtected := o.isProtected request.target.hostname
  { request with
    tier := determineTier isProtected request.action
    isProtectedAsset := isProtected
    blastRadius := some (assessBlastRadius isProtected request.action request.target) }

/-- Pushing a request and its first ledger entry. -/
def store (o : ResponseOrchestrator σ) (request : ResponseRequest)
    (executionResult : Option String) (happenings : List Happening) : ResponseOrchestrator σ :=
  { o with
    auditLedger := o.auditLedger ++ [auditEntryWithResult request executionResult]
    requests := o.requests ++ [request]
    trace := o.trace ++ happenings.map (Prod.mk o.requests.length) }

def submit (env : Enforcers σ) (o : ResponseOrchestrator σ) (request : ResponseRequest) :
    ResponseOrchestrator σ × Except String String :=
  let request := o.classify request
  if request.tier = .breakGlass ∧ request.dryRun = false then
    (o, .error "Break-glass required: this action on a protected asset requires emergency authorization")
  else if request.tier = .auto ∧ request.dryRun = false then
    let (result, enforcers) := enforceAction env request.action request.target o.enforcers
    let request := { request with status := outcome result.success }
    ({ o with enforcers := enforcers }.store request (some result.detail)
        [.enforcement, .status request.status], .ok request.id)
  else
    let request := { request with
      status := if request.tier = .auto then .dryRunCompleted else .pending }
    (o.store request none [.status request.status], .ok request.id)

/-! ## Approval -/

/-- The first request with the id, and its position. -/
def lookup (o : ResponseOrchestrator σ) (requestId : String) : Option (ResponseRequest × Nat) :=
  o.requests.zipIdx.find? fun p => p.1.id = requestId

def approve (o : ResponseOrchestrator σ) (requestId : String) (record : ApprovalRecord)
    (now : String) : ResponseOrchestrator σ × Except String ApprovalStatus :=
  match o.lookup requestId with
  | none => (o, .error ("Request " ++ requestId ++ " not found"))
  | some (req, i) =>
    match req.applyDecision requestId record with
    | .error message => (o, .error message)
    | .ok decided =>
      let changes := if decided.status = req.status then [] else [.status decided.status]
      ({ o with
        requests := o.requests.set i decided
        auditLedger := o.auditLedger ++ [auditEntryInner decided now]
        trace := o.trace ++ (.decision record :: changes).map (Prod.mk i) }, .ok decided.status)

/-! ## Expiry -/

/-- `parseRfc3339` is the timestamp that `chrono` reads, in seconds. -/
def requestEpoch (parseRfc3339 : String → Option Int) (requestedAt : String) : Nat :=
  match parseRfc3339 requestedAt with
  | some timestamp => (timestamp % 2 ^ 64).toNat
  | none => (parseUnsigned 64 requestedAt.toList).getD 0

def isStale (parseRfc3339 : String → Option Int) (o : ResponseOrchestrator σ) (nowEpoch : Nat)
    (req : ResponseRequest) : Bool :=
  req.status = .pending ∧ nowEpoch - requestEpoch parseRfc3339 req.requestedAt ≥ o.approvalSlaSecs

def expireStale (parseRfc3339 : String → Option Int) (o : ResponseOrchestrator σ)
    (nowEpoch : Nat) (now : String) : ResponseOrchestrator σ :=
  let isStale := o.isStale parseRfc3339 nowEpoch
  let expire := fun req : ResponseRequest => { req with status := .expired }
  { o with
    requests := o.requests.map fun req => if isStale req then expire req else req
    auditLedger := o.auditLedger ++
      (o.requests.filter isStale).map fun req => auditEntryInner (expire req) now
    trace := o.trace ++
      tagged (fun req => if isStale req then [.status .expired] else []) o.requests 0 }

/-! ## Execution -/

/-- The loop of `execute_approved_matching`: each request as it leaves the loop, with the
result if `enforce_action` was invoked for it. -/
def executeTurns (env : Enforcers σ) (requestId : Option String) :
    List ResponseRequest → σ → List (ResponseRequest × Option EnforcementResult) × σ
  | [], s => ([], s)
  | req :: rest, s =>
    let selected := requestId.all fun targetId => req.id = targetId
    if ¬selected ∨ req.status ≠ .approved ∨ req.dryRun then
      let (turns, s) := executeTurns env requestId rest s
      ((req, none) :: turns, s)
    else
      let (result, s) := enforceAction env req.action req.target s
      let (turns, s) := executeTurns env requestId rest s
      (({ req with status := outcome result.success }, some result) :: turns, s)

/-- What a turn of the loop does to its request. -/
def turnHappenings (turn : ResponseRequest × Option EnforcementResult) : List Happening :=
  if turn.2.isSome then [.enforcement, .status turn.1.status] else []

def executeApprovedMatching (env : Enforcers σ) (o : ResponseOrchestrator σ)
    (requestId : Option String) : ResponseOrchestrator σ × List String :=
  let (turns, enforcers) := executeTurns env requestId o.requests o.enforcers
  ({ o with
      requests := turns.map Prod.fst
      auditLedger := o.auditLedger ++ turns.filterMap fun turn =>
        turn.2.map fun result => auditEntryWithResult turn.1 (some result.detail)
      enforcers := enforcers
      trace := o.trace ++ tagged turnHappenings turns 0 },
    turns.filterMap fun turn => turn.2.map EnforcementResult.detail)

def executeApproved (env : Enforcers σ) (o : ResponseOrchestrator σ) :
    ResponseOrchestrator σ × List String := o.executeApprovedMatching env none

/-! ## Calls -/

inductive OrchestratorOp where
  | registerProtectedAsset (asset : ProtectedAsset)
  | submit (request : ResponseRequest)
  | approve (requestId : String) (record : ApprovalRecord) (now : String)
  | expireStale (nowEpoch : Nat) (now : String)
  | executeApproved
  | executeApprovedMatching (requestId : Option String)

def after (env : Enforcers σ) (parseRfc3339 : String → Option Int)
    (o : ResponseOrchestrator σ) : OrchestratorOp → ResponseOrchestrator σ
  | .registerProtectedAsset asset => o.registerProtectedAsset asset
  | .submit request => (o.submit env request).1
  | .approve requestId record now => (o.approve requestId record now).1
  | .expireStale nowEpoch now => o.expireStale parseRfc3339 nowEpoch now
  | .executeApproved => (o.executeApproved env).1
  | .executeApprovedMatching requestId => (o.executeApprovedMatching env requestId).1

end ResponseOrchestrator

end Wardex.Response
