import Mathlib.Data.List.Sort
import Wardex.Remediation.Engine

/-! Change reviews of remediations: how a request makes one, how approvals settle its status, and
the three operations on the stored reviews. -/

namespace Wardex.Remediation

open Wardex.Lib Wardex.Audit Wardex.Enrollment Wardex.PlaybookDsl

structure RemediationReviewApproval where
  approver : String
  decision : String
  comment : Option String
  signedAt : String
  signature : String

/-- What a proof says about its execution. -/
structure ExecutionResult where
  dryRun : Bool
  platform : RemediationPlatform
  snapshotId : String
  commands : List RemediationCommand
  commandExecutions : List RemediationCommandExecution
  liveExecution : String
  result : RemediationResult

structure RemediationRollbackProof where
  proofId : String
  generatedAt : String
  status : String
  preChangeDigest : String
  recoveryPlan : List String
  verificationDigest : String
  verifiedBy : Option String
  executedAt : Option String
  executionResult : Option ExecutionResult

structure RemediationChangeReview (F : Type) where
  id : String
  title : String
  assetId : String
  changeType : String
  source : String
  summary : String
  risk : String
  approvalStatus : String
  recoveryStatus : String
  requestedBy : String
  requestedAt : String
  requiredApprovers : Nat
  approvals : List RemediationReviewApproval
  approvalChainDigest : Option String
  rollbackProof : Option RemediationRollbackProof
  evidence : Value F

/-- The hash, the calendar, and the text of a JSON value. -/
structure ReviewEnv (F : Type) where
  sha256 : List UInt8 → List UInt8
  chrono : Chrono
  toJson : Value F → String

variable {F : Type}

namespace ReviewEnv

def sha256Text (env : ReviewEnv F) (text : String) : String := sha256Hex env.sha256 (asBytes text)

end ReviewEnv

/-! ## Approvals and proofs -/

def remediationRequiredApprovers (risk : String) (requested : Option Nat) : Nat :=
  let level := toAsciiLowercase (trimText risk)
  let minimum := if level = "critical" ∨ level = "high" then 2 else 1
  min (max (requested.getD minimum) minimum) 5

def remediationRecoveryPlan (review : RemediationChangeReview F) : List String :=
  ["Capture pre-change state for " ++ review.assetId,
    "Execute remediation through the approved response workflow",
    "Validate service health and telemetry recovery after the change",
    if review.changeType = "malware_containment" then
      "Retain quarantine artifact hash and restore from clean backup if validation fails"
    else if review.changeType = "infrastructure_remediation" then
      "Apply the saved configuration checkpoint or redeploy the previous known-good bundle"
    else "Revert using the recorded pre-change checkpoint if risk increases"]

variable (env : ReviewEnv F)

def remediationApprovalSignature (reviewId approver decision signedAt : String)
    (comment : Option String) (evidenceDigest : String) : String :=
  env.sha256Text (reviewId ++ "|" ++ approver ++ "|" ++ decision ++ "|" ++ signedAt ++ "|" ++
    comment.getD "" ++ "|" ++ evidenceDigest)

def remediationApprovalChainDigest (review : RemediationChangeReview F) : Option String :=
  if review.approvals = [] then none
  else some (env.sha256Text (review.id ++ "|" ++
    "|".intercalate (review.approvals.map RemediationReviewApproval.signature)))

def buildRemediationRollbackProof (review : RemediationChangeReview F) (now : Int) :
    RemediationRollbackProof :=
  let preChangeDigest := env.sha256Text (env.toJson (.object [("asset_id", .string review.assetId),
    ("change_type", .string review.changeType), ("evidence", review.evidence)]))
  let recoveryPlan := remediationRecoveryPlan review
  let verificationDigest := env.sha256Text (env.toJson (.object
    [("approval_chain_digest", review.approvalChainDigest.elim .null .string),
      ("pre_change_digest", .string preChangeDigest),
      ("recovery_plan", .array (recoveryPlan.map .string)), ("review_id", .string review.id)]))
  { proofId := "rollback-proof-" ++ String.ofList (verificationDigest.toList.take 12)
    generatedAt := env.chrono.format now
    status := "ready"
    preChangeDigest := preChangeDigest
    recoveryPlan := recoveryPlan
    verificationDigest := verificationDigest
    verifiedBy := none
    executedAt := none
    executionResult := none }

/-- The decision a payload asks for. -/
def submittedDecision (payload : Value F) : String :=
  toAsciiLowercase (trimText (((get payload "decision").bind asStr).getD "approve"))

/-- The status that the approvals of a review amount to. -/
def settledStatus (review : RemediationChangeReview F) : String :=
  if review.approvals.any fun a => a.decision = "deny" then "denied"
  else if review.requiredApprovers ≤ review.approvals.countP fun a => a.decision = "approve" then
    "approved"
  else "pending_review"

/-- The approval takes the place of an older one of its approver, and the status is settled anew. -/
def withApproval (review : RemediationChangeReview F) (approval : RemediationReviewApproval) :
    RemediationChangeReview F :=
  let review := { review with
    approvals := review.approvals.filter (fun a : RemediationReviewApproval =>
      a.approver ≠ approval.approver) ++ [approval] }
  let review := { review with approvalChainDigest := remediationApprovalChainDigest env review }
  { review with approvalStatus := settledStatus review }

def applyRemediationReviewApproval (review : RemediationChangeReview F) (payload : Value F)
    (actor : String) (now : Int) : Except String (RemediationChangeReview F) := do
  let decision := submittedDecision payload
  ensure (decision = "approve" ∨ decision = "deny") "decision must be approve or deny"
  ensure (∀ submitted ∈ evidenceString payload "approver", submitted = actor)
    "approver must match the authenticated actor"
  let comment := evidenceString payload "comment"
  let signedAt := env.chrono.format now
  let evidenceDigest := env.sha256Text (env.toJson review.evidence)
  let review := withApproval env review {
    signature := remediationApprovalSignature env review.id actor decision signedAt comment
      evidenceDigest
    approver := actor
    decision := decision
    comment := comment
    signedAt := signedAt }
  if review.approvalStatus = "approved" ∧ review.rollbackProof.isNone then
    return { review with
      rollbackProof := some (buildRemediationRollbackProof env review now)
      recoveryStatus := "ready" }
  else return review

/-! ## Recording a review -/

def payloadText (payload : Value F) (key default : String) : String :=
  trimText (((get payload key).bind asStr).getD default)

def withSummary (review : RemediationChangeReview F) : RemediationChangeReview F :=
  if review.summary = "" then
    { review with summary := "Review " ++ review.changeType ++ " for " ++ review.assetId ++ "." }
  else review

/-- The review a payload describes, before its approvals. -/
def draftReview (payload : Value F) (actor : String) (now : Int) : RemediationChangeReview F :=
  let risk := payloadText payload "risk" "medium"
  withSummary {
    id := (evidenceString payload "id").getD ("review-" ++ toString (now / 1000000).natAbs)
    title := payloadText payload "title" ""
    assetId := payloadText payload "asset_id" "unscoped"
    changeType := payloadText payload "change_type" "remediation"
    source := payloadText payload "source" "infrastructure"
    summary := payloadText payload "summary" ""
    risk := risk
    approvalStatus := payloadText payload "approval_status" "pending_review"
    recoveryStatus := payloadText payload "recovery_status" "not_started"
    requestedBy := actor
    requestedAt := env.chrono.format now
    requiredApprovers := remediationRequiredApprovers risk
      ((get payload "required_approvers").bind asU64)
    approvals := []
    approvalChainDigest := none
    rollbackProof := none
    evidence := (get payload "evidence").getD (.object []) }

/-- The decisions that come with a new review. -/
def payloadApprovals (payload : Value F) : List (Value F) :=
  ((get payload "approvals").bind asArray).getD []

def remediationReviewFromPayload (payload : Value F) (actor : String) (now : Int) :
    Except String (RemediationChangeReview F) := do
  ensure (payloadText payload "title" "" ≠ "") "title is required"
  (payloadApprovals payload).foldlM
    (fun review approval => applyRemediationReviewApproval env review approval actor now)
    (draftReview env payload actor now)

/-! ## The stored reviews -/

/-- The value under the key of the reviews, if there is one. -/
abbrev ReviewStore (F : Type) := Option (List (RemediationChangeReview F))

def maxRemediationChangeReviews : Nat := 100

def normalizeRemediationChangeReviews (reviews : List (RemediationChangeReview F)) :
    List (RemediationChangeReview F) :=
  let sorted := reviews.insertionSort fun a b => a.requestedAt ≤ b.requestedAt
  sorted.drop (sorted.length - maxRemediationChangeReviews)

def loadRemediationChangeReviews (store : ReviewStore F) : List (RemediationChangeReview F) :=
  store.getD []

/-- `fault` is the error of a storage that fails to write. -/
def saveRemediationChangeReviews (store : ReviewStore F) (fault : Option String)
    (reviews : List (RemediationChangeReview F)) : ReviewStore F × Except String Unit :=
  match fault with
  | some e => (store, .error e)
  | none => (some reviews, .ok ())

inductive RemediationChangeReviewStoreError where
  | notFound
  | invalid (message : String)
  | storage (message : String)

inductive RecordRemediationChangeReviewError where
  | invalid (message : String)
  | storage (message : String)

inductive ExecuteReviewRollbackError where
  | notFound
  | invalid (message : String)
  | liveRollbackDisabled (reviewId : String)
  | hostnameConfirmationMismatch (reviewId : String)
  | storage (message : String)

def upsertRemediationChangeReview (store : ReviewStore F) (fault : Option String)
    (review : RemediationChangeReview F) :
    ReviewStore F × Except String (RemediationChangeReview F) :=
  let reviews := (loadRemediationChangeReviews store).filter fun entry => entry.id ≠ review.id
  let saved := saveRemediationChangeReviews store fault
    (normalizeRemediationChangeReviews (reviews ++ [review]))
  (saved.1, saved.2.map fun _ => review)

def updateRemediationChangeReview (store : ReviewStore F) (fault : Option String)
    (reviewId : String)
    (update : RemediationChangeReview F → Except String (RemediationChangeReview F)) :
    ReviewStore F × Except RemediationChangeReviewStoreError (RemediationChangeReview F) :=
  let reviews := loadRemediationChangeReviews store
  match reviews.find? fun entry => entry.id = reviewId with
  | none => (store, .error .notFound)
  | some review =>
    match update review with
    | .error e => (store, .error (.invalid e))
    | .ok review =>
      let reviews := reviews.eraseP (fun entry => entry.id = reviewId) ++ [review]
      let saved := saveRemediationChangeReviews store fault
        (normalizeRemediationChangeReviews reviews)
      (saved.1, (saved.2.mapError .storage).map fun _ => review)

def recordRemediationChangeReview (store : ReviewStore F) (fault : Option String)
    (payload : Value F) (actor : String) (now : Int) :
    ReviewStore F × Except RecordRemediationChangeReviewError (RemediationChangeReview F) :=
  match remediationReviewFromPayload env payload actor now with
  | .error e => (store, .error (.invalid e))
  | .ok review =>
    let upserted := upsertRemediationChangeReview store fault review
    (upserted.1, upserted.2.mapError .storage)

def approveRemediationChangeReview (store : ReviewStore F) (fault : Option String)
    (reviewId : String) (payload : Value F) (actor : String) (now : Int) :
    ReviewStore F × Except RemediationChangeReviewStoreError (RemediationChangeReview F) :=
  updateRemediationChangeReview store fault reviewId fun review =>
    applyRemediationReviewApproval env review payload actor now

structure ExecuteReviewRollbackRequest (F : Type) where
  reviewId : String
  payload : Value F
  actor : String
  allowLiveRollback : Bool
  executeLiveCommands : Bool

namespace ExecuteReviewRollbackRequest

def dryRun (request : ExecuteReviewRollbackRequest F) : Bool :=
  ((get request.payload "dry_run").bind asBool).getD true

/-- What a live rollback needs besides an approved review. -/
def permit (request : ExecuteReviewRollbackRequest F) (review : RemediationChangeReview F) :
    Except ExecuteReviewRollbackError Unit :=
  if request.dryRun then .ok ()
  else
    let confirmHostname := (((get request.payload "confirm_hostname").bind asStr).map
      fun s => trim s.toList).getD []
    let assetId := trim review.assetId.toList
    let hostMatch := confirmHostname ≠ [] ∧ assetId ≠ [] ∧
      confirmHostname.map Char.toLower = assetId.map Char.toLower
    if !request.allowLiveRollback then .error (.liveRollbackDisabled review.id)
    else if ¬ hostMatch then .error (.hostnameConfirmationMismatch review.id)
    else .ok ()

def rollbackRequest (request : ExecuteReviewRollbackRequest F)
    (review : RemediationChangeReview F) : ReviewRollbackRequest F where
  reviewId := review.id
  assetId := review.assetId
  approvalChainDigest := review.approvalChainDigest
  evidence := review.evidence
  platform := remediationPlatformFromPayload request.payload
  dryRun := request.dryRun
  executeLiveCommands := request.executeLiveCommands

end ExecuteReviewRollbackRequest

/-- The proof of the review, made now if it has none, with the outcome of the rollback. -/
def executedReview (review : RemediationChangeReview F) (request : ExecuteReviewRollbackRequest F)
    (outcome : ReviewRollbackOutcome) (now : Int) : RemediationChangeReview F :=
  let proof := review.rollbackProof.getD (buildRemediationRollbackProof env review now)
  { review with
    rollbackProof := some { proof with
      status := outcome.proofStatus
      verifiedBy := some request.actor
      executedAt := some (env.chrono.format now)
      executionResult := some {
        dryRun := request.dryRun
        platform := outcome.platform
        snapshotId := outcome.snapshotId
        commands := outcome.commands
        commandExecutions := outcome.commandExecutions
        liveExecution := outcome.executionMode
        result := outcome.result } }
    recoveryStatus := outcome.recoveryStatus }

def executeAndRecordReviewRollback (host : RemediationHost) (store : ReviewStore F)
    (engine : RemediationEngine) (fault : Option String) (request : ExecuteReviewRollbackRequest F)
    (now : Int) : (ReviewStore F × RemediationEngine) ×
      Except ExecuteReviewRollbackError (RemediationChangeReview F) :=
  let reviews := loadRemediationChangeReviews store
  match reviews.find? fun entry => entry.id = request.reviewId with
  | none => ((store, engine), .error .notFound)
  | some review =>
    match request.permit review with
    | .error e => ((store, engine), .error e)
    | .ok _ =>
      if review.approvalStatus ≠ "approved" then
        ((store, engine), .error (.invalid "rollback requires approved change review"))
      else
        match executeReviewRollback host engine (request.rollbackRequest review) with
        | (engine, .error e) => ((store, engine), .error (.invalid e))
        | (engine, .ok outcome) =>
          let review := executedReview env review request outcome now
          let reviews := reviews.eraseP (fun entry => entry.id = request.reviewId) ++ [review]
          let saved := saveRemediationChangeReviews store fault
            (normalizeRemediationChangeReviews reviews)
          ((saved.1, engine), (saved.2.mapError .storage).map fun _ => review)

end Wardex.Remediation

