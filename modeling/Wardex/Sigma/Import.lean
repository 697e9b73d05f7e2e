import Mathlib.Algebra.GroupWithZero.Nat
import Wardex.Lib.Decimal
import Wardex.Lib.SortedMap
import Wardex.Lib.Text
import Wardex.Sigma.Rule

/-! The reader that turns the text of a rule into a JSON value, line by line, and the rules read
from SigmaHQ text.  Upper-casing is a parameter. -/

namespace Wardex.Sigma

open Wardex.Lib

/-- The JSON values that the reader builds.  Objects have their keys in order. -/
inductive Json where
  | bool (b : Bool)
  | number (n : Int)
  | string (s : String)
  | array (items : List Json)
  | object (fields : List (String × Json))

namespace Json

def asStr : Json → Option String
  | string s => some s
  | _ => none

def asArray : Json → Option (List Json)
  | array items => some items
  | _ => none

def asObject : Json → Option (List (String × Json))
  | object fields => some fields
  | _ => none

def get (key : String) : Json → Option Json
  | object fields => fields.lookup key
  | _ => none

end Json

def stripQuotes (s : List Char) : List Char := trimMatches '"' (trimMatches '\'' (trim s))

/-- What a scalar without its quotes stands for. -/
def scalarValue (s : List Char) : Json :=
  if s = "true".toList then .bool true
  else if s = "false".toList then .bool false
  else match parseSigned 64 s with
    | some n => .number n
    | none => .string (String.ofList s)

def parseYamlScalar (s : List Char) : Json := scalarValue (stripQuotes s)

/-- Commas separate the items of an inline list, also those inside quotes. -/
def parseYamlValue (s : List Char) : Json :=
  let s := trim s
  if s.head? = some '[' ∧ s.getLast? = some ']' then
    .array ((s.tail.dropLast.splitOn ',').map fun item => parseYamlScalar (trim item))
  else parseYamlScalar s

structure YamlState where
  root : List (String × Json)
  currentKey : Option String
  currentList : Option (List Json)
  currentMap : Option (List (String × Json))
  inSubMap : Bool
  subKey : Option String

namespace YamlState

def start : YamlState where
  root := []
  currentKey := none
  currentList := none
  currentMap := none
  inSubMap := false
  subKey := none

/-- What stands under the current key; a list comes before a map. -/
def pending (st : YamlState) : Option Json :=
  match st.currentList, st.currentMap with
  | some items, _ => some (.array items)
  | none, some fields => some (.object fields)
  | none, none => none

def flushCurrent (st : YamlState) : YamlState :=
  { st with
    root := match st.currentKey, st.pending with
      | some key, some value => insertKey st.root key value
      | _, _ => st.root
    currentKey := none
    currentList := none
    currentMap := none }

/-- A line that is not indented and has a colon. -/
def topLevel (st : YamlState) (trimmed : List Char) : YamlState :=
  let st := { st.flushCurrent with inSubMap := false, subKey := none }
  match splitOnce ':' trimmed with
  | none => st
  | some (key, val) =>
    let key := String.ofList (trim key)
    let val := trim val
    if val = [] then
      { st with currentKey := some key, currentList := none, currentMap := some [] }
    else { st with root := insertKey st.root key (parseYamlScalar val) }

/-- An indented line that starts with a dash. -/
def listItem (st : YamlState) (trimmed : List Char) : YamlState :=
  let item := parseYamlScalar (trim (trimmed.dropWhile (· == '-')))
  match st.currentList with
  | none => { st with currentList := some [item], currentMap := none }
  | some items => { st with currentList := some (items ++ [item]) }

/-- The entry of the sub-map, made where it is missing; a value that is no object stays. -/
def insertSub (fields : List (String × Json)) (sub key : String) (value : Json) :
    List (String × Json) :=
  match (fields.lookup sub).getD (.object []) with
  | .object inner => insertKey fields sub (.object (insertKey inner key value))
  | _ => fields

/-- An indented line that has a colon. -/
def mapEntry (st : YamlState) (indent : Nat) (trimmed : List Char) : YamlState :=
  match splitOnce ':' trimmed with
  | none => st
  | some (k, v) =>
    let k := String.ofList (trim k)
    let v := trim v
    if 8 ≤ indent ∧ st.inSubMap then
      match st.currentMap, st.subKey with
      | some fields, some sub =>
        { st with currentMap := some (insertSub fields sub k (parseYamlValue v)) }
      | _, _ => st
    else if 4 ≤ indent then
      if v = [] then
        { st with
          inSubMap := true
          subKey := some k
          currentMap := st.currentMap.map fun fields => insertKey fields k (.object []) }
      else
        { st with
          inSubMap := false
          subKey := none
          currentMap := st.currentMap.map fun fields => insertKey fields k (parseYamlValue v) }
    else st

/-- One line that is neither blank nor a comment, by its indentation and what follows it. -/
def line (st : YamlState) (l : Nat × List Char) : YamlState :=
  let dash := l.2.head? = some '-'
  if l.1 = 0 ∧ ':' ∈ l.2 ∧ ¬dash then st.topLevel l.2
  else if 0 < l.1 ∧ dash then st.listItem l.2
  else if 0 < l.1 ∧ ':' ∈ l.2 ∧ ¬dash then st.mapEntry l.1 l.2
  else st

end YamlState

/-- Indentation is counted in bytes. -/
def indentation (line : List Char) : Nat := ((line.takeWhile isWhiteSpace).map Char.utf8Size).sum

/-- The lines that the reader does not skip, each with its indentation. -/
def significant (text : List Char) : List (Nat × List Char) :=
  ((lines text).map fun line => (indentation line, trim line)).filter fun l =>
    l.2 ≠ [] ∧ l.2.head? ≠ some '#'

def parseYamlToJson (yaml : String) : Except String Json :=
  let st := (significant yaml.toList).foldl YamlState.line .start
  .ok (.object st.flushCurrent.root)

/-! ## Rules -/

def modifierOf (m : String) : MatchModifier :=
  if m = "contains" then .contains
  else if m = "startswith" then .startsWith
  else if m = "endswith" then .endsWith
  else if m = "re" then .re
  else .equals

/-- The field and the modifier that a key such as `field|modifier` names. -/
def splitField (key : String) : String × MatchModifier :=
  match splitOnce '|' key.toList with
  | some (f, m) => (String.ofList f, modifierOf (String.ofList m))
  | none => (key, .equals)

/-- Items of a list that are neither text nor numbers are left out. -/
def itemText : Json → Option String
  | .string s => some s
  | .number n => some (toString n)
  | _ => none

def fieldValues : Json → List String
  | .array items => items.filterMap itemText
  | .string s => [s]
  | .number n => [toString n]
  | .bool b => [toString b]
  | .object _ => []

def fieldMatcher (entry : String × Json) : FieldMatcher where
  field := (splitField entry.1).1
  modifier := (splitField entry.1).2
  values := fieldValues entry.2

mutual

def parseSigmaDetectionItem : Json → List FieldMatcher
  | .object fields => fields.map fieldMatcher
  | .array items => parseSigmaDetectionItems items
  | _ => []

def parseSigmaDetectionItems : List Json → List FieldMatcher
  | [] => []
  | item :: items => parseSigmaDetectionItem item ++ parseSigmaDetectionItems items

end

/-- The selections and the filters among the entries of a detection. -/
def insertItem (tables : Table (List FieldMatcher) × Table (List FieldMatcher))
    (entry : String × Json) : Table (List FieldMatcher) × Table (List FieldMatcher) :=
  if entry.1 = "condition" then tables
  else if "filter".toList <+: entry.1.toList then
    (tables.1, tables.2.insert entry.1 (parseSigmaDetectionItem entry.2))
  else (tables.1.insert entry.1 (parseSigmaDetectionItem entry.2), tables.2)

def parseDetection (detection : Json) : Detection :=
  let tables := (detection.asObject.getD []).foldl insertItem (.empty, .empty)
  { selections := tables.1
    filters := tables.2
    condition := ((detection.get "condition").bind Json.asStr).getD "selection" }

def parseLevel (level : String) : SeverityLevel :=
  if level = "informational" then .informational
  else if level = "low" then .low
  else if level = "medium" then .medium
  else if level = "high" then .high
  else if level = "critical" then .critical
  else .medium

def parseStatus (status : String) : RuleStatus :=
  if status = "stable" then .stable
  else if status = "test" then .test
  else if status = "deprecated" then .deprecated
  else .experimental

def parseLogsource (logsource : Json) : LogSource where
  category := ((logsource.get "category").bind Json.asStr).getD "detection"
  product := (logsource.get "product").bind Json.asStr
  service := (logsource.get "service").bind Json.asStr

/-- The texts of a list; other items are left out. -/
def textItems (value : Option Json) : List String :=
  ((value.bind Json.asArray).getD []).filterMap Json.asStr

/-- Tags that start with `attack.t` name techniques. -/
def attackMapping (toUppercase : String → String) (tag : String) : Option AttackMapping :=
  if "attack.t".toList <+: tag.toList then
    let techId := toUppercase (String.ofList (tag.toList.drop "attack.".length))
    some { tactic := "", techniqueId := techId, techniqueName := techId }
  else none

def parseSigmahqYaml (toUppercase : String → String) (yaml : String) : Except String SigmaRule := do
  let doc ← parseYamlToJson yaml
  let text := fun key => (doc.get key).bind Json.asStr
  let title ← (text "title").elim (.error "Missing 'title' field") .ok
  let logsource ← (doc.get "logsource").elim (.error "Missing 'logsource'") .ok
  let detection ← (doc.get "detection").elim (.error "Missing 'detection'") .ok
  let tags := textItems (doc.get "tags")
  return {
    id := (text "id").getD "unknown"
    title
    status := parseStatus ((text "status").getD "experimental")
    level := parseLevel ((text "level").getD "medium")
    description := (text "description").getD ""
    logsource := parseLogsource logsource
    detection := parseDetection detection
    tags
    attack := tags.filterMap (attackMapping toUppercase)
    falsepositives := textItems (doc.get "falsepositives")
    suppressForSecs := 0
    enabled := true }

end Wardex.Sigma
