import Mathlib.Data.List.Basic
import Mathlib.Tactic.SplitIfs

/-! The runtime monitor: properties over a stream of events, one small automaton for each. -/

namespace Wardex.Temporal

/-- The `f32` comparison in use. -/
class F32 (F : Type) where
  le : F → F → Bool

inductive MonitorEvent (F : Type) where
  | sample (score batteryPct : F)
  | alert (severity : String)
  | action (kind : String) (batteryPct : F)
  | transition (source target : String)
deriving DecidableEq, Repr

inductive Stream where
  | sample
  | alert
  | action
  | transition
deriving DecidableEq, Repr

/-- A `Box<dyn Predicate>` by its `check`. -/
abbrev Predicate (F : Type) := MonitorEvent F → Bool

inductive Obligation (F : Type) where
  | always (pred : Predicate F)
  | within (n : Nat) (pred : Predicate F)

structure Property (F : Type) where
  name : String
  stream : Stream
  guard : Option (Predicate F)
  obligation : Obligation F

/-! ## Built-in predicates -/

section Predicates

variable {F : Type} [F32 F]

def scoreBounded (limit : F) : Predicate F
  | .sample score _ => F32.le score limit
  | _ => true

def severityEquals (value : String) : Predicate F
  | .alert severity => severity == value
  | _ => false

def actionKindNot (value : String) : Predicate F
  | .action kind _ => kind != value
  | _ => false

def transitionToNot (state : String) : Predicate F
  | .transition _ target => target != state
  | _ => true

def alwaysTrue : Predicate F := fun _ => true

end Predicates

/-! ## The automaton of one property -/

inductive PropertyStatus where
  | idle
  | tracking (remaining : Nat)
  | satisfied
  | violated
deriving DecidableEq, Repr

structure Violation where
  propertyName : String
  eventIndex : Nat
deriving DecidableEq, Repr

variable {F : Type}

def matchesStream : Stream → MonitorEvent F → Bool
  | .sample, .sample .. | .alert, .alert .. | .action, .action .. | .transition, .transition .. =>
    true
  | _, _ => false

namespace Property

def guardMatches (p : Property F) (event : MonitorEvent F) : Bool :=
  match p.guard with
  | some g => g event
  | none => true

/-- The body of the loop in `step`: the next status, and whether a violation is pushed. -/
def check (p : Property F) (event : MonitorEvent F) (status : PropertyStatus) :
    PropertyStatus × Bool :=
  if !matchesStream p.stream event then
    -- another stream's event is not looked at, but it counts down
    match status with
    | .tracking remaining =>
      if remaining > 0 then (.tracking (remaining - 1), false) else (.violated, true)
    | status => (status, false)
  else
    match status, p.obligation with
    | .idle, .always pred =>
      if p.guardMatches event then
        if pred event then (.satisfied, false) else (.violated, true)
      else (.idle, false)
    | .idle, .within n pred =>
      if p.guardMatches event then
        if pred event then (.satisfied, false)
        else if n = 0 then (.violated, true)
        else (.tracking (n - 1), false)
      else (.idle, false)
    | .tracking remaining, .within _ pred =>
      if pred event then (.satisfied, false)
      else if remaining = 0 then (.violated, true)
      else (.tracking (remaining - 1), false)
    | .tracking remaining, .always pred =>
      if !pred event then (.violated, true) else (.tracking remaining, false)
    | .satisfied, .always pred =>
      if !pred event then (.violated, true) else (.satisfied, false)
    | .satisfied, .within _ _ => (.satisfied, false)
    | .violated, _ => (.violated, false)

end Property

/-! ## The monitor -/

/-- With a violation goes the position of its property, which no method reads. -/
structure Monitor (F : Type) where
  properties : List (Property F)
  states : List PropertyStatus
  eventCount : Nat
  violations : List (Nat × Violation)
  sameLength : states.length = properties.length

namespace Monitor

def new : Monitor F where
  properties := []
  states := []
  eventCount := 0
  violations := []
  sameLength := rfl

def addProperty (m : Monitor F) (p : Property F) : Monitor F where
  properties := m.properties ++ [p]
  states := m.states ++ [.idle]
  eventCount := m.eventCount
  violations := m.violations
  sameLength := by simp only [List.length_append, m.sameLength, List.length_singleton]

/-- The loop over the properties from position `i` on: their next states and the violations
they push. -/
def checkAll (event : MonitorEvent F) (eventIndex : Nat) :
    Nat → List (Property F) → List PropertyStatus → List PropertyStatus × List (Nat × Violation)
  | i, p :: properties, status :: states =>
    let (status, violated) := p.check event status
    let (states, violations) := checkAll event eventIndex (i + 1) properties states
    let pushed := if violated then [(i, { propertyName := p.name, eventIndex := eventIndex })]
      else []
    (status :: states, pushed ++ violations)
  | _, _, _ => ([], [])

theorem length_checkAll (event : MonitorEvent F) (eventIndex i : Nat)
    {properties : List (Property F)} {states : List PropertyStatus}
    (h : states.length = properties.length) :
    (checkAll event eventIndex i properties states).1.length = properties.length := by
  induction properties generalizing states i with
  | nil => simp [checkAll]
  | cons p properties ih =>
    cases states with
    | nil => simp at h
    | cons status states =>
      rw [checkAll, List.length_cons, List.length_cons, ih (i + 1) (Nat.succ.inj h)]

def step (m : Monitor F) (event : MonitorEvent F) : Monitor F where
  properties := m.properties
  states := (checkAll event (m.eventCount + 1) 0 m.properties m.states).1
  eventCount := m.eventCount + 1
  violations := m.violations ++ (checkAll event (m.eventCount + 1) 0 m.properties m.states).2
  sameLength := length_checkAll event (m.eventCount + 1) 0 m.sameLength

/-- `violations` has an entry for the property at position `i`. -/
def Records (m : Monitor F) (i : Nat) : Prop := ∃ v ∈ m.violations, v.1 = i

end Monitor

/-! ## The properties of the design document -/

namespace Property

variable [F32 F]

def scoreBounded (limit : F) : Property F where
  name := "score_bounded"
  stream := .sample
  guard := none
  obligation := .always (Temporal.scoreBounded limit)

def criticalResponse (n : Nat) : Property F where
  name := "critical_response"
  stream := .alert
  guard := some (severityEquals "critical")
  obligation := .within n (actionKindNot "none")

def noSkipEscalation : Property F where
  name := "no_skip_escalation"
  stream := .transition
  guard := some alwaysTrue
  obligation := .always (transitionToNot "critical")

end Property

end Wardex.Temporal
