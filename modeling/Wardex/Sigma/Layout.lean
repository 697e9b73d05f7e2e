import Wardex.Sigma.Import

/-! Rules in the SigmaHQ layout, the lines they are written in, and what an import keeps of
their detection. -/

namespace Wardex.Sigma

open Wardex.Lib

/-! ### Lines -/

/-- A line that the reader does not skip, without its indentation. -/
def IsLine (text : List Char) : Prop :=
  text ≠ [] ∧ text.head? ≠ some '#' ∧ Bare isWhiteSpace text ∧ '\n' ∉ text ∧ '\r' ∉ text

def writeLine (l : Nat × List Char) : List Char := List.replicate l.1 ' ' ++ l.2

def writeLines (ls : List (Nat × List Char)) : String :=
  String.ofList (ls.flatMap fun l => writeLine l ++ ['\n'])

/-! ### Scalars and keys -/

inductive Style where
  | plain
  | single
  | double
deriving DecidableEq

/-- Characters that no text without quotes starts with. -/
def indicators : List Char := ",[]\x7b\x7d#&*!|>'\"%@`".toList

/-- Text that needs no quotes: no indicator at its start, a dash there only before what is not
white space, and neither a comment nor a further key in it. -/
def PlainText (t : List Char) : Prop :=
  (t ≠ [] ∧ Bare isWhiteSpace t) ∧ (t.head?.all fun c => c ∉ indicators) ∧
    (t.head?.all fun c => c ∉ ['-', '?', ':'] || t.tail.head?.any fun d => !isWhiteSpace d) ∧
    ¬[' ', '#'] <:+: t ∧ ¬[':', ' '] <:+: t ∧ t.getLast? ≠ some ':'

instance (t : List Char) : Decidable (PlainText t) :=
  inferInstanceAs (Decidable (_ ∧ _ ∧ _ ∧ _))

theorem PlainText.not_indicator {t : List Char} (h : PlainText t) {c : Char}
    (hc : t.head? = some c) : c ∉ indicators := by
  have hfirst := h.2.1
  rw [hc] at hfirst
  simpa using hfirst

structure Scalar where
  style : Style
  text : List Char
  oneLine : '\n' ∉ text ∧ '\r' ∉ text
  plain : style = .plain → PlainText text

namespace Scalar

/-- A quote is doubled between single quotes. -/
def doubled (t : List Char) : List Char := t.flatMap fun c => if c = '\'' then [c, c] else [c]

/-- A quote and a backslash come after a backslash between double quotes. -/
def escaped (t : List Char) : List Char :=
  t.flatMap fun c => if c = '"' ∨ c = '\\' then ['\\', c] else [c]

def render (s : Scalar) : List Char :=
  match s.style with
  | .plain => s.text
  | .single => '\'' :: (doubled s.text ++ ['\''])
  | .double => '"' :: (escaped s.text ++ ['"'])

end Scalar

structure Key where
  text : List Char
  oneLine : '\n' ∉ text ∧ '\r' ∉ text
  plain : PlainText text
  noColon : ':' ∉ text
  noDash : text.head? ≠ some '-'

namespace Key

def name (k : Key) : String := String.ofList k.text

/-- A key with what is written after its colon. -/
def line (k : Key) (indent : Nat) (written : List Char) : Nat × List Char :=
  (indent, k.text ++ ':' :: if written = [] then [] else ' ' :: written)

end Key

def itemLine (indent : Nat) (s : Scalar) : Nat × List Char := (indent, '-' :: ' ' :: s.render)

/-! ### Detections -/

/-- An item of an inline list: brackets, braces and commas need quotes there. -/
structure InlineItem where
  scalar : Scalar
  flow : scalar.style = .plain → ∀ c ∈ scalar.text, c ∉ ",[]\x7b\x7d".toList

inductive FieldValue where
  | scalar (s : Scalar)
  | inline (items : List InlineItem)
  | block (first : Scalar) (rest : List Scalar)

namespace FieldValue

/-- What stands on the line of the key. -/
def written : FieldValue → List Char
  | scalar s => s.render
  | inline items => '[' :: ([',', ' '].intercalate (items.map fun i => i.scalar.render) ++ [']'])
  | block _ _ => []

def items : FieldValue → List Scalar
  | block first rest => first :: rest
  | _ => []

def texts : FieldValue → List String
  | scalar s => [String.ofList s.text]
  | inline items => items.map fun i => String.ofList i.scalar.text
  | block first rest => (first :: rest).map fun s => String.ofList s.text

end FieldValue

structure Field where
  key : Key
  value : FieldValue

def Field.lines (f : Field) : List (Nat × List Char) :=
  f.key.line 8 f.value.written :: f.value.items.map (itemLine 12)

structure Selection where
  key : Key
  fields : List Field
  notCondition : key.name ≠ "condition"
  distinct : (fields.map fun f => f.key.name).Nodup

def Selection.lines (s : Selection) : List (Nat × List Char) :=
  s.key.line 4 [] :: s.fields.flatMap Field.lines

/-! ### Documents -/

inductive EntryValue where
  | scalar (s : Scalar)
  | list (items : List Scalar)
  | map (fields : List (Key × Scalar))

/-- An entry of the rule other than its detection. -/
structure Entry where
  key : Key
  value : EntryValue

def Entry.lines (e : Entry) : List (Nat × List Char) :=
  match e.value with
  | .scalar s => [e.key.line 0 s.render]
  | .list items => e.key.line 0 [] :: items.map (itemLine 4)
  | .map fields => e.key.line 0 [] :: fields.map fun p => p.1.line 4 p.2.render

structure Document where
  before : List Entry
  title : Scalar
  selectionsBefore : List Selection
  condition : Scalar
  selectionsAfter : List Selection
  after : List Entry
  titled : ∃ e ∈ before ++ after, e.key.name = "title" ∧ e.value = .scalar title
  logsource : ∃ e ∈ before ++ after, e.key.name = "logsource"
  distinct : ("detection" :: (before ++ after).map fun e => e.key.name).Nodup
  selections : ((selectionsBefore ++ selectionsAfter).map fun s => s.key.name).Nodup

namespace Document

variable (d : Document)

def selected : List Selection := d.selectionsBefore ++ d.selectionsAfter

def conditionLine : Nat × List Char := (4, "condition: ".toList ++ d.condition.render)

/-- The lines below the key of the detection. -/
def body : List (Nat × List Char) :=
  d.selectionsBefore.flatMap Selection.lines ++
    d.conditionLine :: d.selectionsAfter.flatMap Selection.lines

def detectionLines : List (Nat × List Char) := (0, "detection:".toList) :: d.body

def lines : List (Nat × List Char) :=
  d.before.flatMap Entry.lines ++ d.detectionLines ++ d.after.flatMap Entry.lines

end Document

/-! ### What is kept -/

/-- The matchers of a selection or of a filter, by which the name says it is. -/
def Detection.matchersOf (d : Detection) (name : String) : Option (List FieldMatcher) :=
  if "filter".toList <+: name.toList then d.filters name else d.selections name

/-- The condition is the given one, and every written field has a matcher with exactly the
written values. -/
structure Document.KeptBy (d : Document) (detection : Detection) : Prop where
  condition : detection.condition = String.ofList d.condition.text
  selections : ∀ s ∈ d.selected, ∃ matchers, detection.matchersOf s.key.name = some matchers ∧
    ∀ f ∈ s.fields, ∃ m ∈ matchers,
      (m.field, m.modifier) = splitField f.key.name ∧ m.values = f.value.texts

/-- Neither a truth value nor an integer. -/
def IsText (t : List Char) : Prop :=
  t ≠ "true".toList ∧ t ≠ "false".toList ∧ parseSigned 64 t = none

/-- An integer is written the way it is printed. -/
def Canonical (t : List Char) : Prop := ∀ n ∈ parseSigned 64 t, toString n = String.ofList t

/-- No quote or backslash where taking the quotes off goes wrong. -/
def Scalar.Unquotable (s : Scalar) : Prop :=
  match s.style with
  | .plain => s.text.getLast? ≠ some '\'' ∧ s.text.getLast? ≠ some '"'
  | .single => '\'' ∉ s.text ∧ Bare (· == '"') s.text
  | .double => '"' ∉ s.text ∧ '\\' ∉ s.text

namespace FieldValue

def IsBlock : FieldValue → Prop
  | block _ _ => True
  | _ => False

/-- The written values that are read as they are written. -/
def Faithful : FieldValue → Prop
  | scalar s => s.Unquotable ∧ Canonical s.text
  | inline items => items ≠ [] ∧ ∀ i ∈ items, i.scalar.Unquotable ∧ Canonical i.scalar.text ∧
      ',' ∉ i.scalar.text ∧ i.scalar.text ≠ "true".toList ∧ i.scalar.text ≠ "false".toList
  | block _ _ => False

end FieldValue

/-- No block list stands in a selection, the title and the condition are texts, and every field
is read as it is written, or else a field with the same name and modifier happens to be read so. -/
structure Document.Faithful (d : Document) : Prop where
  noBlock : ∀ s ∈ d.selected, ∀ f ∈ s.fields, ¬f.value.IsBlock
  title : IsText (stripQuotes d.title.render)
  condition : d.condition.Unquotable ∧ IsText d.condition.text
  fields : ∀ s ∈ d.selected, ∀ f ∈ s.fields, f.value.Faithful ∨
    ∃ g ∈ s.fields, g ≠ f ∧ splitField g.key.name = splitField f.key.name ∧
      fieldValues (parseYamlValue g.value.written) = f.value.texts

end Wardex.Sigma
