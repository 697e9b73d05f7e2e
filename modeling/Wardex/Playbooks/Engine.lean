import Wardex.Lib.Offsets
import Wardex.Lib.Records
import Wardex.Lib.Text
import Wardex.Policy.Vm

/-! The playbook engine: the conditions and templates of steps; `run_playbook`, which begins an
execution of a registered playbook and works through its steps up to an approval gate; and
`resume_execution`, which grants the approval and goes on.  Case mappings, debug formatting and
floating-point numbers are parameters.  An offset found in the upper-cased text cuts the text
itself, and a cut inside a character panics. -/

namespace Wardex.Playbooks

open Wardex.Lib Wardex.Policy

/-- What the engine uses of the standard library's text functions; `debug` is `{:?}` of a
string. -/
structure TextOps where
  toUppercase : String → String
  toLowercase : String → String
  debug : String → String

/-- A `HashMap<String, String>` as its entries in the order in which it iterates. -/
abbrev Variables := List (String × String)

namespace Variables

def get (m : Variables) (key : String) : Option String := m.lookup key

def remove (m : Variables) (key : String) : Variables := m.filter fun p => p.1 ≠ key

def insert (m : Variables) (key value : String) : Variables := (key, value) :: m.remove key

@[simp] theorem get_insert (m : Variables) (key value : String) :
    (m.insert key value).get key = some value := List.lookup_cons_self

theorem get_remove_of_ne {m : Variables} {key other : String} (h : other ≠ key) :
    (m.remove key).get other = m.get other := by
  induction m with
  | nil => rfl
  | cons p m ih =>
    simp only [remove, get] at ih ⊢
    by_cases hp : p.1 = key
    · have hb : (other == p.1) = false := by simpa [hp] using h
      rw [List.filter_cons_of_neg (by simpa using hp), ih, List.lookup_cons, hb]
    · rw [List.filter_cons_of_pos (by simpa using hp), List.lookup_cons, List.lookup_cons, ih]

theorem get_insert_of_ne {m : Variables} {key other value : String} (h : other ≠ key) :
    (m.insert key value).get other = m.get other := by
  have hb : (other == key) = false := by simpa using h
  rw [insert, get, List.lookup_cons, hb]
  exact get_remove_of_ne h

end Variables

/-- Replaces `{key}` by the value, for each entry in turn. -/
def substituteTemplate (template : String) (vars : Variables) : String :=
  String.ofList <| vars.foldl
    (fun result p => replaceAll (['{'] ++ p.1.toList ++ ['}']) p.2.toList result) template.toList

/-- The name on the left of an operator and the value on its right without its quotes. -/
def operands (left right : List Char) : String × List Char :=
  (String.ofList (trim left), trimMatches '"' (trimMatches '\'' (trim right)))

inductive NumericOp where
  | ge
  | le
  | ne
  | gt
  | lt
deriving DecidableEq

def NumericOp.text : NumericOp → List Char
  | .ge => ['>', '=']
  | .le => ['<', '=']
  | .ne => ['!', '=']
  | .gt => ['>']
  | .lt => ['<']

def NumericOp.eval {F : Type} [F64 F] (l r : F) : NumericOp → Bool
  | .ge => F64.ge l r
  | .le => F64.le l r
  | .ne => F64.gt (F64.abs (F64.sub l r)) F64.epsilon
  | .gt => F64.gt l r
  | .lt => F64.lt l r

section

variable (F : Type) [F64 F] (ops : TextOps)

def upper (text : List Char) : List Char := (ops.toUppercase (String.ofList text)).toList

def lower (text : List Char) : List Char := (ops.toLowercase (String.ofList text)).toList

def findTopLevel (s sep : List Char) : Option Nat := findByte (upper ops sep) (upper ops s)

/-- The outer `none` is a panic. -/
def tryCompare (cond op : List Char) (vars : Variables) : Option (Option Bool) :=
  match findByte (upper ops op) (upper ops cond) with
  | none => some none
  | some pos =>
    match cutOut cond pos op.length with
    | none => none
    | some (left, right) =>
      let (lhsName, rhsRaw) := operands left right
      let lhsVal := (vars.get lhsName).getD ""
      some (some (lower ops rhsRaw <:+: lower ops lhsVal.toList))

def tryNumericOp (cond : List Char) (op : NumericOp) (vars : Variables) : Option Bool :=
  match splitFirst op.text cond with
  | none => none
  | some (left, right) =>
    -- not the beginning of a longer operator
    if (op = .gt ∨ op = .lt) ∧ right.head? = some '=' then none
    else
      let (lhsName, rhsStr) := operands left right
      match (vars.get lhsName).bind (F64.parse (F := F)),
        F64.parse (F := F) (String.ofList rhsStr) with
      | some lhsVal, some rhsVal => some (op.eval lhsVal rhsVal)
      | _, _ => none

def tryStringEq (cond : List Char) (vars : Variables) : Option Bool :=
  match splitFirst ['=', '='] cond with
  | none => none
  | some (left, right) =>
    if left.getLast? = some '!' then none
    else
      let (lhsName, rhsRaw) := operands left right
      some ((vars.get lhsName).getD "" = String.ofList rhsRaw)

/-- A condition without connectives. -/
def evaluatePredicate (condition : List Char) (vars : Variables) : Option Bool :=
  match tryCompare ops condition " CONTAINS ".toList vars with
  | none => none
  | some (some r) => some r
  | some none =>
    let numeric := [NumericOp.ge, .le, .ne, .gt, .lt].findSome? fun op =>
      tryNumericOp F condition op vars
    match numeric.or (tryStringEq condition vars) with
    | some r => some r
    | none => some ((vars.get (String.ofList (trim condition))).any fun v =>
        v ≠ "0" && v ≠ "false" && v ≠ "")

theorem trim_length_le (text : List Char) : (trim text).length ≤ text.length :=
  (trimWith_isInfix isWhiteSpace text).length_le

/-- `None` is a panic. -/
def evaluateChars (condition : List Char) (vars : Variables) : Option Bool :=
  let trimmed := trim condition
  match findTopLevel ops trimmed " OR ".toList with
  | some pos =>
    match _h : cutOut trimmed pos 4 with
    | none => none
    | some (left, right) =>
      (evaluateChars left vars).bind fun l =>
        if l then some true else evaluateChars right vars
  | none =>
    match findTopLevel ops trimmed " AND ".toList with
    | some pos =>
      match _h : cutOut trimmed pos 5 with
      | none => none
      | some (left, right) =>
        (evaluateChars left vars).bind fun l =>
          if l then evaluateChars right vars else some false
    | none => evaluatePredicate F ops trimmed vars
termination_by condition.length
decreasing_by
  all_goals
    have hcut := cutOut_length_lt (by decide) _h
    have htrim : trimmed.length ≤ condition.length := trim_length_le condition
    omega

def evaluateCondition (condition : String) (vars : Variables) : Option Bool :=
  evaluateChars F ops condition.toList vars

end

/-! ## The engine -/

inductive NotifyChannel where
  | email
  | slack
  | webhook
  | pagerDuty
  | msTeams
  | syslog
deriving DecidableEq

/-- The variant's name, as `{:?}` prints it. -/
def NotifyChannel.debug : NotifyChannel → String
  | .email => "Email"
  | .slack => "Slack"
  | .webhook => "Webhook"
  | .pagerDuty => "PagerDuty"
  | .msTeams => "MsTeams"
  | .syslog => "Syslog"

inductive StepType where
  | runAction (action : String) (params : List (String × String))
  | notify (channel : NotifyChannel) (messageTemplate : String)
  | enrich (source queryTemplate : String)
  | conditional (condition thenStep : String) (elseStep : Option String)
  | parallel (stepIds : List String)
  | wait (seconds : Nat)
  | escalate (target messageTemplate : String)
  | createCase (caseTemplate : String)
  | approval (approver messageTemplate : String)
  | collectEvidence (artifactTypes : List String)
  | contain (action : String) (params : List (String × String))
deriving DecidableEq

structure PlaybookStep where
  id : String
  stepType : StepType
  onFailure : Option String
deriving DecidableEq

structure Playbook where
  id : String
  enabled : Bool
  steps : List PlaybookStep
deriving DecidableEq

inductive ExecutionStatus where
  | pending
  | running
  | succeeded
  | failed
  | timedOut
  | skipped
  | awaitingApproval
  | cancelled
deriving DecidableEq

structure StepResult where
  stepId : String
  status : ExecutionStatus
  startedAt : Nat
  finishedAt : Option Nat
  output : Option String
  error : Option String
deriving DecidableEq

structure PlaybookExecution where
  executionId : String
  playbookId : String
  alertId : Option String
  executedBy : String
  status : ExecutionStatus
  startedAt : Nat
  finishedAt : Option Nat
  stepResults : List StepResult
  vars : Variables
  error : Option String
deriving DecidableEq

structure PlaybookEngine where
  playbooks : List Playbook
  executions : List PlaybookExecution
  nextExecId : Nat
deriving DecidableEq

/-- How a call can end without a result: in a panic, or, were a failing step to jump back for
ever, not at all. -/
inductive Abort where
  | panicked
  | unfinished
deriving DecidableEq

def ExecutionStatus.isFinal : ExecutionStatus → Bool
  | .succeeded | .failed | .timedOut | .skipped | .cancelled => true
  | .pending | .running | .awaitingApproval => false

def StepResult.update (r : StepResult) (status : ExecutionStatus) (output error : Option String)
    (nowMs : Nat) : StepResult :=
  { r with
    startedAt := if r.startedAt = 0 then nowMs else r.startedAt
    finishedAt := if status.isFinal then some nowMs else r.finishedAt
    status := status
    output := output
    error := error }

def StepType.isApproval : StepType → Bool
  | .approval _ _ => true
  | _ => false

/-- `value.trim()`, unless nothing is left. -/
def trimmedFeedback (feedback : Option String) : Option String :=
  (feedback.map fun f => String.ofList (trim f.toList)).filter fun f => f ≠ ""

namespace PlaybookExecution

def updateStep (e : PlaybookExecution) (stepId : String) (status : ExecutionStatus)
    (output error : Option String) (nowMs : Nat) : PlaybookExecution :=
  { e with
    stepResults := updateFirst (fun r => r.stepId = stepId)
      (fun r => r.update status output error nowMs) e.stepResults }

/-- The step that `resume_execution` takes to be waiting. -/
def approvalStepId (e : PlaybookExecution) : Option String :=
  (e.vars.get "pending_approval_step").or
    ((e.stepResults.find? fun r => r.status = .awaitingApproval).map (·.stepId))

/-- The execution is suspended at an approval step. -/
def suspend (e : PlaybookExecution) (stepId approver message : String) : PlaybookExecution :=
  { e with
    status := .awaitingApproval
    vars := ((e.vars.insert "pending_approval_step" stepId).insert
      "pending_approval_approver" approver).insert "pending_approval_message" message }

/-- The bookkeeping of a granted approval. -/
def grant (e : PlaybookExecution) (stepId approvedBy : String) (feedback : Option String) :
    PlaybookExecution :=
  let cleared := ((e.vars.remove "pending_approval_step").remove
    "pending_approval_approver").remove "pending_approval_message"
  let withActor := cleared.insert "last_approval_actor" approvedBy
  let withFeedback := match trimmedFeedback feedback with
    | some text => withActor.insert "last_approval_feedback" text
    | none => withActor
  { e with
    status := .running
    vars := withFeedback.insert "last_approval_step" stepId }

end PlaybookExecution

namespace PlaybookEngine

def new : PlaybookEngine where
  playbooks := []
  executions := []
  nextExecId := 1

def register (eng : PlaybookEngine) (playbook : Playbook) : PlaybookEngine :=
  { eng with playbooks := (eng.playbooks.filter fun p => p.id ≠ playbook.id) ++ [playbook] }

def getPlaybook (eng : PlaybookEngine) (id : String) : Option Playbook :=
  eng.playbooks.find? fun p => p.id = id

def getExecution (eng : PlaybookEngine) (id : String) : Option PlaybookExecution :=
  eng.executions.find? fun e => e.executionId = id

def modifyExecution (eng : PlaybookEngine) (id : String)
    (f : PlaybookExecution → PlaybookExecution) : PlaybookEngine :=
  { eng with executions := updateFirst (fun e => e.executionId = id) f eng.executions }

/-- `format!("exec-{}", self.next_exec_id)`. -/
def execId (n : Nat) : String := "exec-" ++ toString n

def newExecution (eng : PlaybookEngine) (pb : Playbook) (playbookId : String)
    (alertId : Option String) (executedBy : String) (nowMs : Nat) : PlaybookExecution where
  executionId := execId eng.nextExecId
  playbookId := playbookId
  alertId := alertId
  executedBy := executedBy
  status := .running
  startedAt := nowMs
  finishedAt := none
  stepResults := pb.steps.map fun s =>
    { stepId := s.id, status := .pending, startedAt := 0, finishedAt := none, output := none,
      error := none }
  vars := []
  error := none

def startExecution (eng : PlaybookEngine) (playbookId : String) (alertId : Option String)
    (executedBy : String) (nowMs : Nat) : Option (PlaybookEngine × String) :=
  match eng.getPlaybook playbookId with
  | none => none
  | some pb =>
    if pb.enabled then
      some ({ eng with
        executions := eng.executions ++ [eng.newExecution pb playbookId alertId executedBy nowMs]
        nextExecId := eng.nextExecId + 1 }, execId eng.nextExecId)
    else none

def updateStep (eng : PlaybookEngine) (executionId stepId : String) (status : ExecutionStatus)
    (output error : Option String) (nowMs : Nat) : PlaybookEngine :=
  eng.modifyExecution executionId fun e => e.updateStep stepId status output error nowMs

def finishExecution (eng : PlaybookEngine) (executionId : String) (status : ExecutionStatus)
    (error : Option String) (nowMs : Nat) : PlaybookEngine :=
  eng.modifyExecution executionId fun e =>
    { e with status := status, error := error, finishedAt := some nowMs }

variable (F : Type) [F64 F] (ops : TextOps)

/-- The outer `none` is a panic. -/
def dispatchStep (eng : PlaybookEngine) (step : PlaybookStep) (executionId : String) :
    Option (Except String (Option String)) :=
  match eng.getExecution executionId with
  | none => some (.error "execution not found")
  | some exec =>
    match step.stepType with
    | .runAction action params => some (.ok (some
        ("executed action '" ++ action ++ "' with " ++ toString params.length ++ " params")))
    | .notify channel template => some (.ok (some
        ("notified " ++ channel.debug ++ ": " ++ substituteTemplate template exec.vars)))
    | .enrich source template => some (.ok (some
        ("enriched from '" ++ source ++ "': " ++ substituteTemplate template exec.vars)))
    | .conditional condition thenStep elseStep =>
      (evaluateCondition F ops condition exec.vars).map fun result =>
        if result then .ok (some ("condition true → " ++ thenStep))
        else match elseStep with
          | some el => .ok (some ("condition false → " ++ el))
          | none => .ok (some "condition false → skip")
    | .parallel stepIds => some (.ok (some
        ("parallel fan-out: " ++ toString stepIds.length ++ " steps")))
    | .wait seconds => some (.ok (some ("waited " ++ toString seconds ++ " seconds")))
    | .escalate target template => some (.ok (some
        ("escalated to '" ++ target ++ "': " ++ substituteTemplate template exec.vars)))
    | .createCase template => some (.ok (some ("created case from template '" ++ template ++ "'")))
    | .approval approver template => some (.ok (some
        ("approval requested from '" ++ approver ++ "': " ++
          substituteTemplate template exec.vars)))
    | .collectEvidence artifactTypes => some (.ok (some
        ("collected evidence: [" ++ ", ".intercalate (artifactTypes.map ops.debug) ++ "]")))
    | .contain action params => some (.ok (some
        ("containment '" ++ action ++ "' with " ++ toString params.length ++ " params")))

/-- The `while` loop of `continue_execution`, for at most the given number of rounds. -/
def continueLoop (executionId : String) (steps : List PlaybookStep) (startIdx nowMs : Nat) :
    Nat → PlaybookEngine → Nat → Except Abort PlaybookEngine
  | 0, _, _ => .error .unfinished
  | rounds + 1, eng, i =>
    match steps[i]? with
    | none =>
      let finalTime := nowMs + (steps.length - startIdx + 1) * 100
      .ok (eng.finishExecution executionId .succeeded none finalTime)
    | some step =>
      let stepNow := nowMs + (i - startIdx + 1) * 100
      match dispatchStep F ops eng step executionId with
      | none => .error .panicked
      | some (.ok output) =>
        match step.stepType with
        | .approval approver template =>
          let message := match eng.getExecution executionId with
            | none => template
            | some exec => substituteTemplate template exec.vars
          .ok ((eng.updateStep executionId step.id .awaitingApproval output none
            stepNow).modifyExecution executionId fun e => e.suspend step.id approver message)
        | _ =>
          continueLoop executionId steps startIdx nowMs rounds
            (eng.updateStep executionId step.id .succeeded output none stepNow) (i + 1)
      | some (.error err) =>
        let failed := eng.updateStep executionId step.id .failed none (some err) stepNow
        match step.onFailure.bind fun id => steps.findIdx? fun s => s.id = id with
        | some jump => continueLoop executionId steps startIdx nowMs rounds failed jump
        | none => .ok (failed.finishExecution executionId .failed (some err) stepNow)

/-- One round for each step from the start on and one for the end. -/
def continueExecution (eng : PlaybookEngine) (executionId : String) (steps : List PlaybookStep)
    (startIdx nowMs : Nat) : Except Abort PlaybookEngine :=
  continueLoop F ops executionId steps startIdx nowMs (steps.length - startIdx + 1) eng startIdx

/-- The engine afterwards and what the call returns. -/
def runPlaybook (eng : PlaybookEngine) (playbookId : String) (alertId : Option String)
    (executedBy : String) (vars : Variables) (nowMs : Nat) :
    Except Abort (PlaybookEngine × Except String String) :=
  match eng.getPlaybook playbookId with
  | none => .ok (eng, .error ("playbook not found: " ++ playbookId))
  | some pb =>
    if pb.enabled then
      match eng.startExecution playbookId alertId executedBy nowMs with
      | none => .ok (eng, .error "failed to start execution")
      | some (started, id) =>
        let ready := started.modifyExecution id fun e => { e with vars := vars }
        (continueExecution F ops ready id pb.steps 0 nowMs).map fun eng => (eng, .ok id)
    else .ok (eng, .error "playbook is disabled")

/-- The playbook, the approval step and the index after it, where `resume_execution` goes on. -/
def resumePoint (eng : PlaybookEngine) (executionId : String) :
    Except String (Playbook × String × Nat) :=
  match eng.getExecution executionId with
  | none => .error ("execution not found: " ++ executionId)
  | some execution =>
    if execution.status = .awaitingApproval then
      match execution.approvalStepId with
      | none => .error "pending approval step not found"
      | some stepId =>
        match eng.getPlaybook execution.playbookId with
        | none => .error ("playbook not found: " ++ execution.playbookId)
        | some playbook =>
          match playbook.steps.findIdx? fun s => s.id = stepId with
          | none => .error ("approval step not found: " ++ stepId)
          | some i => .ok (playbook, stepId, i + 1)
    else .error ("execution '" ++ executionId ++ "' is not awaiting approval")

/-- The engine after the approval is recorded and before the execution goes on. -/
def grantApproval (eng : PlaybookEngine) (executionId stepId approvedBy : String)
    (feedback : Option String) (nowMs : Nat) : PlaybookEngine :=
  let output := match trimmedFeedback feedback with
    | none => "approved by '" ++ approvedBy ++ "'"
    | some value => "approved by '" ++ approvedBy ++ "': " ++ value
  (eng.updateStep executionId stepId .succeeded (some output) none nowMs).modifyExecution
    executionId fun e => e.grant stepId approvedBy feedback

def resumeExecution (eng : PlaybookEngine) (executionId approvedBy : String)
    (feedback : Option String) (nowMs : Nat) :
    Except Abort (PlaybookEngine × Except String String) :=
  match eng.resumePoint executionId with
  | .error message => .ok (eng, .error message)
  | .ok (playbook, stepId, resumeIndex) =>
    (continueExecution F ops (eng.grantApproval executionId stepId approvedBy feedback nowMs)
      executionId playbook.steps resumeIndex nowMs).map fun eng => (eng, .ok executionId)

end PlaybookEngine

end Wardex.Playbooks
