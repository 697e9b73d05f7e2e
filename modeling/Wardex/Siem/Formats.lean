import Mathlib.Data.List.Basic
import Wardex.Lib.Delimited
import Wardex.Lib.Escaped
import Wardex.Lib.Text

/-! The export of alerts as lines of text, and how the three text formats are read: the rules by
which a log collector splits a line. -/

namespace Wardex.Siem

open Wardex.Lib

/-- A float as `{:.2}` writes it: rounded to hundredths. -/
inductive Rounded where
  | nan
  | infinite (negative : Bool)
  | finite (negative : Bool) (hundredths : Nat)

def sign (negative : Bool) : String := if negative then "-" else ""

def Rounded.text : Rounded → String
  | .nan => "NaN"
  | .infinite negative => sign negative ++ "inf"
  | .finite negative n =>
    sign negative ++ toString (n / 100) ++ "." ++ toString (n / 10 % 10) ++ toString (n % 10)

theorem mem_text {r : Rounded} {c : Char} (h : c ∈ r.text.toList) :
    c.isDigit ∨ c ∈ ['-', '.', 'N', 'a', 'i', 'n', 'f'] := by
  have hdigits (n : Nat) (hc : c ∈ (toString n).toList) : c.isDigit := by
    rw [Nat.toString_eq_ofList_toDigits, String.toList_ofList] at hc
    exact Nat.isDigit_of_mem_toDigits (by decide) (by decide) hc
  have hsign (negative : Bool) (hc : c ∈ (sign negative).toList) : c = '-' := by
    cases negative with
    | false => exact absurd hc List.not_mem_nil
    | true => exact List.mem_singleton.mp hc
  cases r with
  | nan =>
    have hc : c ∈ ['N', 'a', 'N'] := h
    simp only [List.mem_cons, List.not_mem_nil, or_false] at hc
    rcases hc with rfl | rfl | rfl <;> decide
  | infinite negative =>
    simp only [Rounded.text, String.toList_append, List.mem_append] at h
    rcases h with h | h
    · rw [hsign negative h]
      decide
    · have hc : c ∈ ['i', 'n', 'f'] := h
      simp only [List.mem_cons, List.not_mem_nil, or_false] at hc
      rcases hc with rfl | rfl | rfl <;> decide
  | finite negative n =>
    simp only [Rounded.text, String.toList_append, List.mem_append] at h
    rcases h with (((h | h) | h) | h) | h
    · rw [hsign negative h]
      decide
    · exact Or.inl (hdigits _ h)
    · obtain rfl : c = '.' := List.mem_singleton.mp h
      decide
    · exact Or.inl (hdigits _ h)
    · exact Or.inl (hdigits _ h)

/-- A written number has none of the characters that any of the formats treats specially. -/
theorem notMem_text (r : Rounded) {c : Char} (h : c ∈ ['\\', '=', '|', '"', ']', ' ', '\t', '\n']) :
    c ∉ r.text.toList := by
  intro hc
  simp only [List.mem_cons, List.not_mem_nil, or_false] at h
  rcases h with rfl | rfl | rfl | rfl | rfl | rfl | rfl | rfl <;>
    exact absurd (mem_text hc) (by decide)

theorem text_ne_nil (r : Rounded) : r.text.toList ≠ [] := by
  intro h
  cases r with
  | nan => exact absurd h (by decide)
  | infinite negative =>
    rw [Rounded.text, String.toList_append, List.append_eq_nil_iff] at h
    exact absurd h.2 (by decide)
  | finite negative n =>
    simp only [Rounded.text, String.toList_append, List.append_eq_nil_iff] at h
    exact absurd h.1.1.2 (by decide)

structure MitreAttack where
  tactic : String
  techniqueId : String

structure AlertRecord where
  timestamp : String
  hostname : String
  score : Rounded
  confidence : Rounded
  level : String
  action : String
  reasons : List String
  mitre : List MitreAttack

def AlertRecord.joinedReasons (a : AlertRecord) : String := "; ".intercalate a.reasons

def AlertRecord.mitreStr (a : AlertRecord) : String :=
  ",".intercalate (a.mitre.map fun m => m.techniqueId ++ ":" ++ m.tactic)

def cefSeverity (level : String) : String :=
  if level = "critical" then "10" else if level = "severe" then "8"
  else if level = "elevated" then "5" else "3"

def cefLine (a : AlertRecord) : String :=
  "CEF:0|Wardex|Wardex|1.0|alert|" ++ a.action ++ "|" ++ cefSeverity a.level ++ "|src=" ++
    a.hostname ++ " dst=" ++ a.hostname ++ " cs1=" ++ a.joinedReasons ++
    " cs1Label=reasons cs2=" ++ a.mitreStr ++ " cs2Label=mitre cfp1=" ++ a.score.text ++
    " cfp1Label=score"

def formatCef (alerts : List AlertRecord) : String := "\n".intercalate (alerts.map cefLine)

def leefLine (a : AlertRecord) : String :=
  "LEEF:2.0|Wardex|Wardex|1.0|alert|\tdevTime=" ++ a.timestamp ++ "\tsrc=" ++ a.hostname ++
    "\tsev=" ++ a.level ++ "\taction=" ++ a.action ++ "\treasons=" ++ a.joinedReasons ++
    "\tmitre=" ++ a.mitreStr ++ "\tscore=" ++ a.score.text

def formatLeef (alerts : List AlertRecord) : String := "\n".intercalate (alerts.map leefLine)

/-- Facility local4 and the severity of the level. -/
def syslogPri (level : String) : Nat :=
  20 * 8 + if level = "critical" then 2 else if level = "severe" then 3
    else if level = "elevated" then 4 else 6

def syslogLine (a : AlertRecord) : String :=
  "<" ++ toString (syslogPri a.level) ++ ">1 " ++ a.timestamp ++ " " ++ a.hostname ++
    " Wardex - " ++ a.action ++ " [wardex@48710 score=\"" ++ a.score.text ++ "\" level=\"" ++
    a.level ++ "\" confidence=\"" ++ a.confidence.text ++ "\" mitre=\"" ++ a.mitreStr ++ "\"] " ++
    a.joinedReasons

def formatSyslogRfc5424 (alerts : List AlertRecord) : String :=
  "\n".intercalate (alerts.map syslogLine)

/-- The export in one of the formats; `json` stands for those that encode the alerts as JSON. -/
def exportAlerts (json : List AlertRecord → String → String) (alerts : List AlertRecord)
    (format : String) : String :=
  if format = "cef" then formatCef alerts
  else if format = "leef" then formatLeef alerts
  else if format = "syslog" ∨ format = "rfc5424" then formatSyslogRfc5424 alerts
  else json alerts format

/-! ## Reading a line -/

/-- What a collector gets from a line: the hostname, the action, the reasons, and the keys of all
the fields of the line. -/
structure LogEntry where
  hostname : String
  action : String
  reasons : String
  keys : List String

/-- The value of the field with the key. -/
def field (fields : List (List Char × List Char)) (key : String) : Option String :=
  (fields.lookup key.toList).map String.ofList

def keysOf (fields : List (List Char × List Char)) : List String :=
  fields.map fun f => String.ofList f.1

theorem keysOf_eq {fields : List (List Char × List Char)} {keys : List String} :
    keysOf fields = keys ↔ fields.map Prod.fst = keys.map String.toList := by
  constructor
  · rintro rfl
    simp [keysOf]
  · intro h
    have hkeys := congrArg (List.map String.ofList) h
    simpa [keysOf, Function.comp_def] using hkeys

/-- The lines of a log; a text of no characters has none. -/
def logLines (text : String) : List String :=
  if text.toList = [] then [] else (text.toList.splitOn '\n').map String.ofList

/-! ### CEF -/

/-- In the header a backslash escapes a bar or a backslash. -/
def headerEscape (c : Char) : Option Char :=
  if c = '|' ∨ c = '\\' then some c else none

/-- In the extension a backslash escapes an equals sign or a backslash, or stands for an end of
line. -/
def extensionEscape (c : Char) : Option Char :=
  if c = '=' ∨ c = '\\' then some c
  else if c = 'n' then some '\n' else if c = 'r' then some '\r' else none

/-- The pairs of an extension that was cut at its equals signs. A value ends at the last blank
before the next equals sign; the word after the blank is the next key. -/
def readPairs (key : List Symbol) : List (List Symbol) → Option (List (List Char × List Char))
  | [] => none
  | [last] => do
    let key ← unescape extensionEscape key
    let value ← unescape extensionEscape last
    pure [(key, value)]
  | piece :: next :: pieces => do
    let (value, nextKey) ← splitLast (.plain ' ') piece
    let key ← unescape extensionEscape key
    let value ← unescape extensionEscape value
    let pairs ← readPairs nextKey (next :: pieces)
    pure ((key, value) :: pairs)

def readExtension (ts : List Symbol) : Option (List (List Char × List Char)) :=
  match ts.splitOn (.plain '=') with
  | [] => none
  | key :: pieces => readPairs key pieces

/-- A line of CEF: seven header fields, of which the sixth is the name of the event, and the
extension. -/
def readCef (line : String) : Option LogEntry := do
  let (header, extension) ← takeFields (.plain '|') 7 (symbols line.toList)
  let name ← header[5]?
  let action ← unescape headerEscape name
  let fields ← readExtension extension
  let hostname ← field fields "src"
  let reasons ← field fields "cs1"
  pure ⟨hostname, String.ofList action, reasons, keysOf fields⟩

/-! ### LEEF -/

/-- The attributes, of a text that begins with a tab. -/
def readAttributes : List (List Char) → Option LogEntry
  | [] :: attributes => do
    let fields ← attributes.mapM (splitOnce '=')
    let hostname ← field fields "src"
    let action ← field fields "action"
    let reasons ← field fields "reasons"
    pure ⟨hostname, action, reasons, keysOf fields⟩
  | _ => none

/-- A line of LEEF: five header fields and the attributes, with a tab before each. -/
def readLeef (line : String) : Option LogEntry := do
  let (_, rest) ← takeFields '|' 5 line.toList
  readAttributes (rest.splitOn '\t')

/-! ### RFC 5424 -/

/-- In a quoted value a backslash escapes a quote, a closing bracket or a backslash; before any
other character it stands for itself. -/
def unquote (ts : List Symbol) : List Char :=
  ts.flatMap fun
    | .plain c => [c]
    | .escaped c => if c = '"' ∨ c = ']' ∨ c = '\\' then [c] else ['\\', c]
    | .dangling => ['\\']

/-- A name of the structured data is made of characters that need no escape in it. -/
def readName (ts : List Symbol) : Option (List Char) :=
  ts.mapM fun
    | .plain c => if c = ' ' ∨ c = '=' ∨ c = '"' ∨ c = ']' then none else some c
    | _ => none

/-- A blank, a name and an equals sign. -/
def readParamName (ts : List Symbol) : Option (List Char) :=
  if ts.head? = some (.plain ' ') ∧ ts.getLast? = some (.plain '=') then
    readName ts.tail.dropLast
  else none

/-- The parameters of an element that was cut at its quotes. -/
def readParams : List (List Symbol) → Option (List (List Char × List Char))
  | [] => none
  | [last] => if last = [] then some [] else none
  | name :: value :: pieces => do
    let name ← readParamName name
    let params ← readParams pieces
    pure ((name, unquote value) :: params)

/-- An element of the structured data: its name up to the first blank, and its parameters. -/
def readElement (ts : List Symbol) : Option (List (List Char × List Char)) := do
  let _ ← readName (ts.takeWhile (· ≠ .plain ' '))
  readParams ((ts.dropWhile (· ≠ .plain ' ')).splitOn (.plain '"'))

/-- The element in its brackets, and the message behind a blank. -/
def readStructuredData : List Char → Option (List (List Char × List Char) × List Char)
  | '[' :: rest => do
    let (element, rest) ← takeFields (.plain ']') 1 (symbols rest)
    let params ← readElement element.flatten
    match sourceOf rest with
    | [] => pure (params, [])
    | ' ' :: message => pure (params, message)
    | _ => none
  | _ => none

/-- A line of syslog: six header fields with a blank after each (priority and version, timestamp,
hostname, application, process, message id), the structured data and the message. -/
def readSyslog (line : String) : Option LogEntry := do
  let (header, rest) ← takeFields ' ' 6 line.toList
  let hostname ← header[2]?
  let messageId ← header[5]?
  let (params, message) ← readStructuredData rest
  pure ⟨String.ofList hostname, String.ofList messageId, String.ofList message, keysOf params⟩

end Wardex.Siem
