import Mathlib.Data.List.Infix
import Mathlib.Logic.Function.Basic
import Wardex.Lib.Text
import Wardex.Policy.Vm

/-! Detection rules and their evaluation on the fields of an event.  Lower-casing and
floating-point parsing are parameters. -/

namespace Wardex.Sigma

open Wardex.Lib Wardex.Policy

/-- A `HashMap` with text keys, by what `get` returns. -/
abbrev Table (α : Type) := String → Option α

namespace Table

variable {α : Type}

def empty : Table α := fun _ => none

def insert (m : Table α) (key : String) (value : α) : Table α :=
  Function.update m key (some value)

end Table

inductive RuleStatus where
  | experimental
  | test
  | stable
  | deprecated
deriving DecidableEq

inductive SeverityLevel where
  | informational
  | low
  | medium
  | high
  | critical
deriving DecidableEq

structure LogSource where
  category : String
  product : Option String
  service : Option String
deriving DecidableEq

inductive MatchModifier where
  | equals
  | contains
  | startsWith
  | endsWith
  | re
  | gt
  | lt
  | exists
deriving DecidableEq

structure FieldMatcher where
  field : String
  modifier : MatchModifier
  values : List String
deriving DecidableEq

structure Detection where
  selections : Table (List FieldMatcher)
  filters : Table (List FieldMatcher)
  condition : String

structure AttackMapping where
  tactic : String
  techniqueId : String
  techniqueName : String
deriving DecidableEq

structure SigmaRule where
  id : String
  title : String
  status : RuleStatus
  level : SeverityLevel
  description : String
  logsource : LogSource
  detection : Detection
  tags : List String
  attack : List AttackMapping
  falsepositives : List String
  suppressForSecs : Nat
  enabled : Bool

structure RuleMatch where
  ruleId : String
  ruleTitle : String
  level : SeverityLevel
  matchedFields : List (String × String)
  attack : List AttackMapping
deriving DecidableEq

/-- An index beyond the end of a vector. -/
inductive Panic where
  | indexOutOfBounds (len index : Nat)
deriving DecidableEq

section

variable (F : Type) [F64 F] (toLowercase : String → String)

/-- `eq_ignore_ascii_case`. -/
def eqIgnoreAsciiCase (a b : String) : Bool :=
  a.toList.map Char.toLower == b.toList.map Char.toLower

def textContains (v pat : String) : Bool := pat.toList <:+: v.toList

/-- A pattern between `\\(` and `)\\` or between parentheses is a list of alternatives; any
other is searched for as it stands. -/
def reMatches (v pat : String) : Bool :=
  let chars := pat.toList
  let opening := ['\\', '\\', '(']
  let closing := [')', '\\', '\\']
  let body := chars.drop opening.length
  if opening <+: chars ∧ closing <:+ body then
    ((body.take (body.length - closing.length)).splitOn '|').any fun alt =>
      textContains v (String.ofList (['\\'] ++ alt ++ ['\\']))
  else if '|' ∈ chars ∧ chars.head? = some '(' ∧ chars.getLast? = some ')' then
    (chars.tail.dropLast.splitOn '|').any fun alt => textContains v (String.ofList alt)
  else textContains v pat

/-- Both the field and the first value must be numbers. -/
def compareFirst (compare : F → F → Bool) (v : String) (values : List String) : Bool :=
  match F64.parse v, values.head?.bind (F64.parse (F := F)) with
  | some fv, some tv => compare fv tv
  | _, _ => false

def FieldMatcher.holds (m : FieldMatcher) (fields : Table String) : Bool :=
  (fields m.field).any fun v =>
    match m.modifier with
    | .exists => v ≠ ""
    | .equals => m.values.any fun pat => eqIgnoreAsciiCase v pat
    | .contains => m.values.any fun pat => textContains (toLowercase v) (toLowercase pat)
    | .startsWith => m.values.any fun pat => (toLowercase pat).toList <+: (toLowercase v).toList
    | .endsWith => m.values.any fun pat => (toLowercase pat).toList <:+ (toLowercase v).toList
    | .re => m.values.any fun pat => reMatches v pat
    | .gt => compareFirst F F64.gt v m.values
    | .lt => compareFirst F F64.lt v m.values

def evaluateSelection (fields : Table String) : List FieldMatcher → Option (List (String × String))
  | [] => some []
  | m :: matchers =>
    if m.holds F toLowercase fields then
      (evaluateSelection fields matchers).map fun matched =>
        ((fields m.field).map (Prod.mk m.field)).toList ++ matched
    else none

/-- What `split_whitespace` yields. -/
def splitWhitespace (text : String) : List String := (words text.toList).map String.ofList

namespace Detection

variable (d : Detection) (fields : Table String)

def select (name : String) : Option (List (String × String)) :=
  (d.selections name).bind (evaluateSelection F toLowercase fields)

/-- The branch for conditions with an `or`: every other word is tried as a selection. -/
def evaluateOr (parts : List String) : Option (List (String × String)) :=
  let hits := (parts.filter fun part => part ≠ "or").filterMap (d.select F toLowercase fields)
  if hits = [] then none else some hits.flatten

/-- The loop for conditions with an `and` and no `or`. -/
def evaluateAnd : List String → Option (List (String × String))
  | [] => some []
  | part :: rest =>
    if part = "and" then evaluateAnd rest
    else if part = "not" then
      match rest with
      | [] => some []
      | name :: rest =>
        match d.filters name with
        | some matchers =>
          if (evaluateSelection F toLowercase fields matchers).isSome then none
          else evaluateAnd rest
        | none =>
          if (d.select F toLowercase fields name).isSome then none else evaluateAnd rest
    else
      match d.select F toLowercase fields part with
      | none => none
      | some matched => (evaluateAnd rest).map (matched ++ ·)

end Detection

def evaluateRule (rule : SigmaRule) (fields : Table String) :
    Except Panic (Option (List (String × String))) :=
  let d := rule.detection
  let parts := splitWhitespace d.condition
  match parts with
  | [selName] => .ok (d.select F toLowercase fields selName)
  | _ =>
    if "or" ∈ parts then .ok (d.evaluateOr F toLowercase fields parts)
    else if "and" ∈ parts then .ok (d.evaluateAnd F toLowercase fields parts)
    else
      match parts with
      | [] => .error (.indexOutOfBounds 0 0)
      | first :: _ => .ok (d.select F toLowercase fields first)

end

end Wardex.Sigma
