import Wardex.Lib.Brackets
import Wardex.Lib.Decimal
import Wardex.Lib.KeyMap
import Wardex.Lib.Offsets
import Wardex.Lib.Text

/-! The parser of the query endpoint.  A selection set is what stands between braces; its fields
are read one after the other, each with its alias, its arguments and its own selection set. -/

namespace Wardex.GraphQl

open Lib

def maxQuerySize : Nat := 100 * 1024

def maxDepth : Nat := 50

/-- The values an argument can be given. -/
inductive ArgValue
  | number (n : Int)
  | bool (b : Bool)
  | string (s : String)
  deriving DecidableEq

structure Selection where
  field : String
  aliasName : Option String
  args : KeyMap String ArgValue
  subFields : List Selection

structure ParsedQuery where
  operation : String
  name : Option String
  selections : List Selection

/-- What counts as alphanumeric: of the ASCII characters the letters and the digits, and never
white space. -/
structure Alphabet where
  isAlphanumeric : Char → Bool
  ascii : ∀ c, c.toNat < 128 → isAlphanumeric c = c.isAlphanum
  whiteSpace : ∀ c, isWhiteSpace c → isAlphanumeric c = false

def Alphabet.isNameChar (alphabet : Alphabet) (c : Char) : Bool :=
  alphabet.isAlphanumeric c || c == '_'

/-- White space and commas, which a selection set may have anywhere. -/
def isSkipped (c : Char) : Bool := isWhiteSpace c || c == ','

def skipWhitespace (chars : List Char) : List Char := chars.dropWhile isSkipped

/-- The string up to the closing quote, with its escapes as they are, and what follows. -/
def scanQuoted : List Char → List Char × List Char
  | [] => ([], [])
  | [c] => if c = '"' then ([], []) else ([c], [])
  | c :: d :: rest =>
    if c = '\\' then (scanQuoted rest).map (fun s => c :: d :: s) id
    else if c = '"' then ([], d :: rest)
    else (scanQuoted (d :: rest)).map (List.cons c) id

def parseUnquoted (raw : List Char) : ArgValue :=
  match parseSigned 64 raw with
  | some n => .number n
  | none =>
    if raw = "true".toList then .bool true
    else if raw = "false".toList then .bool false
    else .string (String.ofList raw)

def parseValue (remaining : List Char) : ArgValue × List Char :=
  match remaining with
  | '"' :: text =>
    let scanned := scanQuoted text
    (.string (String.ofList scanned.1), trim (scanned.2.dropWhile (· == ',')))
  | _ =>
    (parseUnquoted (trim (remaining.takeWhile (· != ','))),
      trim ((remaining.dropWhile (· != ',')).drop 1))

theorem trim_length (text : List Char) : (trim text).length ≤ text.length :=
  (trimWith_isInfix isWhiteSpace text).length_le

theorem scanQuoted_length (text : List Char) : (scanQuoted text).2.length ≤ text.length := by
  fun_induction scanQuoted text with
  | case1 => exact Nat.le_refl 0
  | case2 => exact Nat.zero_le _
  | case3 c _ => exact Nat.zero_le _
  | case4 d rest ih => exact ih.trans ((Nat.le_succ _).trans (Nat.le_succ _))
  | case5 d rest _ => exact Nat.le_succ _
  | case6 c d rest _ _ ih => exact ih.trans (Nat.le_succ _)

theorem parseValue_length (remaining : List Char) :
    (parseValue remaining).2.length ≤ remaining.length := by
  unfold parseValue
  split
  · next text =>
    have hcommas : ((scanQuoted text).2.dropWhile (· == ',')).length ≤ (scanQuoted text).2.length :=
      (List.dropWhile_suffix _).length_le
    exact (trim_length _).trans
      (hcommas.trans ((scanQuoted_length text).trans (Nat.le_succ _)))
  · exact (trim_length _).trans
      ((List.drop_suffix 1 _).length_le.trans (List.dropWhile_suffix _).length_le)

theorem splitOnce_length {c : Char} {text key rest : List Char}
    (h : splitOnce c text = some (key, rest)) : rest.length < text.length := by
  induction text generalizing key with
  | nil => cases h
  | cons d text ih =>
    rw [splitOnce] at h
    split_ifs at h
    · obtain ⟨-, rfl⟩ := Prod.mk.inj (Option.some.inj h)
      exact Nat.lt_succ_self _
    · obtain ⟨⟨before, after⟩, hsplit, hpair⟩ := Option.map_eq_some_iff.mp h
      obtain ⟨-, rfl⟩ := Prod.mk.inj hpair
      exact (ih hsplit).trans (Nat.lt_succ_self _)

/-- The rounds of the loop over the arguments. -/
def parseArgsFrom (remaining : List Char) (args : KeyMap String ArgValue) :
    KeyMap String ArgValue :=
  match _h : splitOnce ':' remaining with
  | none => args
  | some (key, rest) =>
    let value := parseValue (trim rest)
    parseArgsFrom value.2 (args.insert (String.ofList (trim key)) value.1)
termination_by remaining.length
decreasing_by
  exact ((parseValue_length _).trans (trim_length rest)).trans_lt (splitOnce_length _h)

def parseArgs (input : List Char) : KeyMap String ArgValue :=
  parseArgsFrom (trim input) KeyMap.empty

/-- The offset of the brace that closes the first one. -/
def findMatchingBrace (s : List Char) : Option Nat :=
  match splitClose '{' '}' 0 s with
  | (before, some _) => some before.length
  | (_, none) => none

section

variable (alphabet : Alphabet)

/-- A name stands before a colon as the alias of the name behind it. -/
def readAlias (buf chars : List Char) : (Option (List Char) × List Char) × List Char :=
  match skipWhitespace chars with
  | ':' :: rest =>
    let rest := skipWhitespace rest
    ((some buf, rest.takeWhile alphabet.isNameChar), rest.dropWhile alphabet.isNameChar)
  | rest => ((none, buf), rest)

def readArgs (chars : List Char) : KeyMap String ArgValue × List Char :=
  match skipWhitespace chars with
  | '(' :: rest =>
    let split := splitClose '(' ')' 1 rest
    (parseArgs split.1, split.2.getD [])
  | rest => (KeyMap.empty, rest)

def readSubFields (parseSet : List Char → List Selection) (chars : List Char) :
    List Selection × List Char :=
  match skipWhitespace chars with
  | '{' :: rest =>
    let split := splitClose '{' '}' 0 ('{' :: rest)
    let braceStr := split.1 ++ if split.2.isSome then ['}'] else []
    (parseSet braceStr, split.2.getD [])
  | rest => ([], rest)

/-- What follows the name a field begins with. -/
def parseField (parseSet : List Char → List Selection) (buf chars : List Char) :
    Selection × List Char :=
  let named := readAlias alphabet buf chars
  let args := readArgs named.2
  let subFields := readSubFields parseSet args.2
  ({ field := String.ofList named.1.2
     aliasName := named.1.1.map String.ofList
     args := args.1
     subFields := subFields.1 }, subFields.2)

theorem skipWhitespace_suffix (chars : List Char) : skipWhitespace chars <:+ chars :=
  List.dropWhile_suffix _

theorem readAlias_suffix (buf chars : List Char) :
    (readAlias alphabet buf chars).2 <:+ chars := by
  unfold readAlias
  split
  · next rest hrest =>
    have hcolon : rest <:+ skipWhitespace chars := hrest ▸ List.suffix_cons ':' rest
    exact (List.dropWhile_suffix _).trans
      ((skipWhitespace_suffix rest).trans (hcolon.trans (skipWhitespace_suffix chars)))
  · exact skipWhitespace_suffix chars

theorem readArgs_suffix (chars : List Char) : (readArgs chars).2 <:+ chars := by
  unfold readArgs
  split
  · next rest hrest =>
    have hparen : rest <:+ skipWhitespace chars := hrest ▸ List.suffix_cons '(' rest
    exact (splitClose_suffix '(' ')' 1 rest).trans
      (hparen.trans (skipWhitespace_suffix chars))
  · exact skipWhitespace_suffix chars

theorem readSubFields_suffix (parseSet : List Char → List Selection) (chars : List Char) :
    (readSubFields parseSet chars).2 <:+ chars := by
  unfold readSubFields
  split
  · next rest hrest =>
    have hbrace : '{' :: rest <:+ chars := hrest ▸ skipWhitespace_suffix chars
    exact (splitClose_suffix '{' '}' 0 ('{' :: rest)).trans hbrace
  · exact skipWhitespace_suffix chars

theorem parseField_suffix (parseSet : List Char → List Selection) (buf chars : List Char) :
    (parseField alphabet parseSet buf chars).2 <:+ chars :=
  (readSubFields_suffix parseSet _).trans
    ((readArgs_suffix _).trans (readAlias_suffix alphabet buf chars))

theorem skipWhitespace_length (chars : List Char) :
    (skipWhitespace chars).length ≤ chars.length :=
  (skipWhitespace_suffix chars).length_le

theorem parseField_length (parseSet : List Char → List Selection) (buf chars : List Char) :
    (parseField alphabet parseSet buf chars).2.length ≤ chars.length :=
  (parseField_suffix alphabet parseSet buf chars).length_le

def parseFields (parseSet : List Char → List Selection) (chars : List Char) :
    Except String (List Selection) :=
  let start := skipWhitespace chars
  match _hbuf : start.takeWhile alphabet.isNameChar,
      _hrest : start.dropWhile alphabet.isNameChar with
  | [], [] => .ok []
  | [], c :: _ => .error s!"Unexpected character '{c}' in selection set"
  | b :: buf, rest =>
    let field := parseField alphabet parseSet (b :: buf) rest
    (parseFields parseSet field.2).map (List.cons field.1)
termination_by chars.length
decreasing_by
  have hparts := congrArg List.length
    (List.takeWhile_append_dropWhile (p := alphabet.isNameChar) (l := skipWhitespace chars))
  rw [_hbuf, _hrest, List.length_append, List.length_cons] at hparts
  have hfield := parseField_length alphabet parseSet (b :: buf) rest
  have hskip := skipWhitespace_length chars
  omega

def parseSelectionSet (input : List Char) (depth : Nat) : Except String (List Selection) :=
  if maxDepth ≤ depth then
    .error s!"Selection nesting exceeds maximum depth of {maxDepth}"
  else
    let trimmed := trim input
    if trimmed.head? ≠ some '{' then .error "Expected '\x7b'"
    else
      match findMatchingBrace trimmed with
      | none => .error "Unmatched '\x7b'"
      | some stop =>
        let parseSet := fun braceStr => (parseSelectionSet braceStr (depth + 1)).toOption.getD []
        parseFields alphabet parseSet ((trimmed.take stop).drop 1)
termination_by maxDepth - depth

/-- The keyword a query begins with, and what follows it. -/
def parseOperation (trimmed : List Char) : Option (String × List Char) :=
  if "mutation".toList <+: trimmed then some ("mutation", trimmed.drop "mutation".toList.length)
  else if "query".toList <+: trimmed then some ("query", trimmed.drop "query".toList.length)
  else if trimmed.head? = some '{' then some ("query", trimmed)
  else none

/-- The name stands before the variables of a query, and these before the first brace. -/
def parseName (before : List Char) : Option String :=
  let before := trim before
  if before = [] then none
  else
    let n := trim (before.takeWhile (· != '('))
    if n = [] then none else some (String.ofList n)

def parseQuery (query : List Char) : Except String ParsedQuery :=
  if maxQuerySize < utf8Length query then
    .error s!"Query exceeds maximum size of {maxQuerySize} bytes"
  else
    match parseOperation (trim query) with
    | none => .error "Expected 'query' or 'mutation' or '\x7b'"
    | some (operation, rest) =>
      let rest := trim rest
      match splitOnce '{' rest with
      | none => .error "Expected '\x7b'"
      | some (before, body) => do
        let selections ← parseSelectionSet alphabet ('{' :: body) 0
        .ok { operation, name := parseName before, selections }

end

end Wardex.GraphQl
