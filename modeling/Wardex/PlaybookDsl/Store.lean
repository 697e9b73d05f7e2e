import Mathlib.Data.List.Infix
import Wardex.Lib.Decimal
import Wardex.Lib.Records
import Wardex.Policy.Vm

/-! The store of playbooks written in the DSL and their executions.  Floating-point numbers are
a parameter, and so is the conversion of an integer to one. -/

namespace Wardex.PlaybookDsl

open Wardex.Lib Wardex.Policy

/-- `serde_json::Value`; the entries of an object are sorted by key. -/
inductive Value (F : Type) where
  | null
  | bool (b : Bool)
  | int (n : Int)
  | float (x : F)
  | string (s : String)
  | array (items : List (Value F))
  | object (entries : List (String × Value F))

/-- Floating-point numbers where none is used. -/
abbrev noFloats : F64 Unit where
  zero := ()
  one := ()
  half := ()
  epsilon := ()
  add _ _ := ()
  sub _ _ := ()
  mul _ _ := ()
  div _ _ := ()
  abs _ := ()
  gt _ _ := false
  lt _ _ := false
  ge _ _ := true
  le _ _ := true
  eq _ _ := true
  parse _ := none

section

variable {F : Type} [F64 F]

mutual

/-- `==` on values. -/
def Value.beq : Value F → Value F → Bool
  | .null, .null => true
  | .bool a, .bool b => a == b
  | .int a, .int b => a == b
  | .float a, .float b => F64.eq a b
  | .string a, .string b => a == b
  | .array as, .array bs => beqItems as bs
  | .object as, .object bs => beqEntries as bs
  | _, _ => false

def beqItems : List (Value F) → List (Value F) → Bool
  | [], [] => true
  | a :: as, b :: bs => Value.beq a b && beqItems as bs
  | _, _ => false

def beqEntries : List (String × Value F) → List (String × Value F) → Bool
  | [], [] => true
  | (k, a) :: as, (l, b) :: bs => k == l && Value.beq a b && beqEntries as bs
  | _, _ => false

end

end

inductive ConditionOp where
  | eq
  | ne
  | gt
  | gte
  | lt
  | lte
  | contains
  | in
deriving DecidableEq

inductive PlaybookNode (F : Type) where
  | step (id : String)
  | condition (id variableName : String) (operator : ConditionOp) (value : Value F)
      (thenBranch elseBranch : List String)
  | parallel (id : String) (branches : List (List String))
  | forEach (id variableName itemVar : String) (body : List String)
  | action (id actionType : String) (parameters : List (String × Value F))
  | setVariable (id variableName : String) (value : Value F)

inductive PlaybookStatus where
  | draft
  | testing
  | active
  | deprecated
deriving DecidableEq

structure PlaybookDefinition (F : Type) where
  id : String
  nodes : List (PlaybookNode F)
  entryNodes : List String
  status : PlaybookStatus

inductive ExecutionStatus where
  | running
  | waitingForInput
  | waitingForApproval
  | completed
  | failed
  | cancelled
deriving DecidableEq

structure ActionRecord (F : Type) where
  nodeId : String
  actionType : String
  parameters : List (String × Value F)
  result : Option String
  timestamp : String

/-- The variables are the entries of a map. -/
structure ExecutionContext (F : Type) where
  playbookId : String
  runId : String
  analyst : String
  vars : List (String × Value F)
  completedNodes : List String
  currentNode : Option String
  status : ExecutionStatus
  startedAt : String
  findings : List String
  actionsTaken : List (ActionRecord F)

structure PlaybookDslStore (F : Type) where
  definitions : List (PlaybookDefinition F)
  executions : List (ExecutionContext F)
  nextRunId : Nat

variable {F : Type}

def PlaybookNode.nodeId : PlaybookNode F → String
  | .step id | .condition id _ _ _ _ _ | .parallel id _ | .forEach id _ _ _ | .action id _ _
  | .setVariable id _ _ => id

def findNextNode (d : PlaybookDefinition F) (completed : List String) : Option String :=
  (d.nodes.find? fun node => node.nodeId ∉ completed).map PlaybookNode.nodeId

section

variable [F64 F] (ofInt : Int → F)

def Value.asF64 : Value F → Option F
  | .int n => some (ofInt n)
  | .float x => some x
  | _ => none

def compareNumbers (a b : Value F) : Option Int :=
  match a.asF64 ofInt, b.asF64 ofInt with
  | some x, some y => some (if F64.gt x y then 1 else if F64.lt x y then -1 else 0)
  | _, _ => none

def evaluateCondition (varVal : Option (Value F)) (operator : ConditionOp)
    (expected : Value F) : Bool :=
  match varVal with
  | none => false
  | some val =>
    match operator with
    | .eq => val.beq expected
    | .ne => !val.beq expected
    | .gt => (compareNumbers ofInt val expected).any fun ord => ord > 0
    | .gte => (compareNumbers ofInt val expected).any fun ord => ord ≥ 0
    | .lt => (compareNumbers ofInt val expected).any fun ord => ord < 0
    | .lte => (compareNumbers ofInt val expected).any fun ord => ord ≤ 0
    | .contains =>
      match val, expected with
      | .string s, .string sub => sub.toList <:+: s.toList
      | _, _ => false
    | .in =>
      match expected with
      | .array items => items.any fun item => item.beq val
      | _ => false

/-- Completes the current node and goes on to the next one. -/
def ExecutionContext.completeCurrent (ctx : ExecutionContext F) (d : PlaybookDefinition F)
    (result : Option String) (now : String) : ExecutionContext F :=
  match ctx.currentNode with
  | none => ctx
  | some current =>
    let done := ctx.completedNodes ++ [current]
    match d.nodes.find? fun n => n.nodeId = current with
    | some (.condition _ variableName operator value thenBranch elseBranch) =>
      let condMet := evaluateCondition ofInt (ctx.vars.lookup variableName) operator value
      { ctx with
        completedNodes := done
        currentNode := (if condMet then thenBranch else elseBranch).head? }
    | some (.action id actionType parameters) =>
      { ctx with
        completedNodes := done
        actionsTaken := ctx.actionsTaken ++ [⟨id, actionType, parameters, result, now⟩]
        currentNode := findNextNode d done }
    | some _ =>
      { ctx with
        completedNodes := done
        findings := ctx.findings ++ result.toList
        currentNode := findNextNode d done }
    | none => { ctx with completedNodes := done, currentNode := findNextNode d done }

/-- What `advance_execution` makes of a runnable execution of `d`. -/
def ExecutionContext.advance (ctx : ExecutionContext F) (d : PlaybookDefinition F)
    (result : Option String) (now : String) : ExecutionContext F :=
  let moved := ctx.completeCurrent ofInt d result now
  if moved.currentNode = none then { moved with status := .completed } else moved

end

def ExecutionContext.runnable (ctx : ExecutionContext F) : Bool :=
  ctx.status = .running ∨ ctx.status = .waitingForInput

namespace PlaybookDslStore

def new : PlaybookDslStore F where
  definitions := []
  executions := []
  nextRunId := 1

def create (store : PlaybookDslStore F) (d : PlaybookDefinition F) : PlaybookDslStore F :=
  { store with definitions := (store.definitions.filter fun e => e.id ≠ d.id) ++ [d] }

def getDefinition (store : PlaybookDslStore F) (id : String) : Option (PlaybookDefinition F) :=
  store.definitions.find? fun d => d.id = id

def getExecution (store : PlaybookDslStore F) (runId : String) : Option (ExecutionContext F) :=
  store.executions.find? fun e => e.runId = runId

def runId (n : Nat) : String := "run-" ++ toString n

def startExecution (store : PlaybookDslStore F) (playbookId analyst : String)
    (initialVars : List (String × Value F)) (now : String) :
    PlaybookDslStore F × Except String (ExecutionContext F) :=
  match store.definitions.find? fun d => d.id = playbookId ∧ d.status = .active with
  | none => (store, .error ("playbook '" ++ playbookId ++ "' not found or not active"))
  | some d =>
    let ctx : ExecutionContext F :=
      { playbookId := playbookId, runId := runId store.nextRunId, analyst := analyst,
        vars := initialVars, completedNodes := [], currentNode := d.entryNodes.head?,
        status := .running, startedAt := now, findings := [], actionsTaken := [] }
    ({ store with
      executions := store.executions ++ [ctx]
      nextRunId := store.nextRunId + 1 }, .ok ctx)

variable [F64 F] (ofInt : Int → F)

def advanceExecution (store : PlaybookDslStore F) (runId : String) (result : Option String)
    (now : String) : PlaybookDslStore F × Except String (ExecutionContext F) :=
  match store.getExecution runId with
  | none => (store, .error ("execution '" ++ runId ++ "' not found"))
  | some ctx =>
    if ctx.runnable then
      match store.getDefinition ctx.playbookId with
      | none => (store, .error "playbook definition not found")
      | some d =>
        let advanced := ctx.advance ofInt d result now
        ({ store with executions :=
            updateFirst (fun e => e.runId = runId) (fun _ => advanced) store.executions },
          .ok advanced)
    else (store, .error ("execution '" ++ runId ++ "' is not in a runnable state"))

end PlaybookDslStore

end Wardex.PlaybookDsl
