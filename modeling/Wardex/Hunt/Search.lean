import Mathlib.Data.List.Sort
import Wardex.Hunt.Wildcard
import Wardex.Lib.Decimal
import Wardex.Lib.Grouping
import Wardex.Lib.Ranking
import Wardex.Lib.Text

/-! The language of hunt queries: tokens, and the recursive descent over them; and the search index:
documents, the hunt for those that a query selects, and the aggregation of these by a function that
follows the query behind a pipe.  Lower case is a parameter, and so is the order in which hash maps
and sets are walked through. -/

namespace Wardex.Hunt

open Wardex.Lib

inductive HuntPredicate where
  | fieldMatch (field pattern : String)
  | freeText (text : String)
  | and (left right : HuntPredicate)
  | or (left right : HuntPredicate)
  | not (inner : HuntPredicate)
deriving DecidableEq

inductive HuntToken where
  | word (text : String)
  | fieldValue (field value : String)
  | and
  | or
  | not
  | lParen
  | rParen
deriving DecidableEq

inductive HuntError where
  /-- `empty query` -/
  | emptyQuery
  /-- `unexpected tokens after query: ` and the tokens -/
  | unexpectedTokens (rest : List HuntToken)
  /-- `unexpected end of query` -/
  | unexpectedEnd
  /-- `missing closing parenthesis` -/
  | missingParen
  /-- `unexpected token: ` and the token -/
  | unexpectedToken (token : HuntToken)
deriving DecidableEq

/-! ### Tokens -/

/-- A word ends before white space and parentheses. -/
def isWordChar (c : Char) : Bool := !(isWhiteSpace c || c == '(' || c == ')')

/-- Keywords are recognised in any case; only ASCII letters have theirs as upper case. A word with
a colon is a field with its value. -/
def wordToken (word : List Char) : HuntToken :=
  let upper := word.map Char.toUpper
  if upper = "AND".toList then .and
  else if upper = "OR".toList then .or
  else if upper = "NOT".toList then .not
  else
    match splitOnce ':' word with
    | some (field, value) =>
      .fieldValue (String.ofList field) (String.ofList (trimMatches '\'' (trimMatches '"' value)))
    | none => .word (String.ofList word)

def tokenizeHunt : List Char → List HuntToken
  | [] => []
  | c :: cs =>
    if isWhiteSpace c then tokenizeHunt cs
    else if c = '(' then .lParen :: tokenizeHunt cs
    else if c = ')' then .rParen :: tokenizeHunt cs
    else if c = '"' then
      .word (String.ofList (cs.takeWhile (· ≠ '"'))) ::
        tokenizeHunt (cs.dropWhile (· ≠ '"')).tail
    else
      wordToken (c :: cs.takeWhile isWordChar) :: tokenizeHunt (cs.dropWhile isWordChar)
termination_by chars => chars.length
decreasing_by
  all_goals simp only [List.length_cons, List.length_tail]
  all_goals
    have hword := (List.dropWhile_suffix (l := cs) isWordChar).length_le
    have hquoted := (List.dropWhile_suffix (l := cs) (· ≠ '"')).length_le
    omega

theorem tokenizeHunt_nil : tokenizeHunt [] = [] := by
  rw [tokenizeHunt]

theorem tokenizeHunt_cons (c : Char) (cs : List Char) :
    tokenizeHunt (c :: cs) =
      if isWhiteSpace c then tokenizeHunt cs
      else if c = '(' then .lParen :: tokenizeHunt cs
      else if c = ')' then .rParen :: tokenizeHunt cs
      else if c = '"' then
        .word (String.ofList (cs.takeWhile (· ≠ '"'))) ::
          tokenizeHunt (cs.dropWhile (· ≠ '"')).tail
      else
        wordToken (c :: cs.takeWhile isWordChar) :: tokenizeHunt (cs.dropWhile isWordChar) := by
  rw [tokenizeHunt]

/-! ### Parsing -/

/-- A predicate, and the tokens behind it: fewer than there were. -/
abbrev Parsed (tokens : List HuntToken) :=
  { p : HuntPredicate × List HuntToken // p.2.length < tokens.length }

theorem Parsed.or_lt {tokens rest : List HuntToken} (left : Parsed tokens)
    (hrest : left.1.2 = .or :: rest) (right : Parsed rest) :
    right.1.2.length < tokens.length := by
  have hleft := left.2
  rw [hrest, List.length_cons] at hleft
  exact right.2.trans (Nat.lt_of_succ_lt hleft)

/-- The tokens that can follow an operand of an implicit conjunction. -/
def HuntToken.startsOperand : HuntToken → Bool
  | .word _ | .fieldValue _ _ | .not | .lParen => true
  | _ => false

mutual

def parseOr (tokens : List HuntToken) : Except HuntError (Parsed tokens) := do
  let left ← parseAnd tokens
  parseOrRest tokens left
termination_by (tokens.length, 5)

/-- The loop of `parse_or` -/
def parseOrRest (tokens : List HuntToken) (left : Parsed tokens) :
    Except HuntError (Parsed tokens) :=
  match hrest : left.1.2 with
  | .or :: rest => do
    let right ← parseAnd rest
    parseOrRest tokens ⟨(.or left.1.1 right.1.1, right.1.2), left.or_lt hrest right⟩
  | _ => .ok left
termination_by (left.1.2.length, 4)
decreasing_by all_goals grind

def parseAnd (tokens : List HuntToken) : Except HuntError (Parsed tokens) := do
  let left ← parseUnary tokens
  parseAndRest tokens left
termination_by (tokens.length, 3)

/-- The loop of `parse_and` -/
def parseAndRest (tokens : List HuntToken) (left : Parsed tokens) :
    Except HuntError (Parsed tokens) :=
  match hrest : left.1.2 with
  | .and :: rest => do
    let right ← parseUnary rest
    parseAndRest tokens ⟨(.and left.1.1 right.1.1, right.1.2), by grind⟩
  | token :: rest =>
    if token.startsOperand then do
      let right ← parseUnary (token :: rest)
      parseAndRest tokens ⟨(.and left.1.1 right.1.1, right.1.2), by grind⟩
    else .ok left
  | [] => .ok left
termination_by (left.1.2.length, 4)
decreasing_by all_goals grind

def parseUnary (tokens : List HuntToken) : Except HuntError (Parsed tokens) :=
  match tokens with
  | [] => .error .unexpectedEnd
  | .not :: rest => do
    let inner ← parseUnary rest
    .ok ⟨(.not inner.1.1, inner.1.2), by grind⟩
  | token :: rest => parsePrimary (token :: rest)
termination_by (tokens.length, 2)

def parsePrimary (tokens : List HuntToken) : Except HuntError (Parsed tokens) :=
  match tokens with
  | [] => .error .unexpectedEnd
  | .lParen :: rest => do
    let inner ← parseOr rest
    match hrest : inner.1.2 with
    | .rParen :: behind => .ok ⟨(inner.1.1, behind), by grind⟩
    | _ => .error .missingParen
  | .fieldValue field value :: rest => .ok ⟨(.fieldMatch field value, rest), by grind⟩
  | .word text :: rest => .ok ⟨(.freeText text, rest), by grind⟩
  | token :: _ => .error (.unexpectedToken token)
termination_by (tokens.length, 1)

end

def parseHuntQuery (input : String) : Except HuntError HuntPredicate := do
  let tokens := tokenizeHunt input.toList
  if tokens = [] then .error .emptyQuery
  else do
    let parsed ← parseOr tokens
    if parsed.1.2 = [] then .ok parsed.1.1 else .error (.unexpectedTokens parsed.1.2)

/-! ## Documents -/

structure SearchDocument where
  timestamp : String
  deviceId : String
  eventClass : String
  processName : String
  commandLine : String
  srcIp : String
  dstIp : String
  userName : String
  rawText : String
deriving DecidableEq

structure SearchHit where
  score : ℕ
  timestamp : String
  deviceId : String
  eventClass : String
  processName : String
  srcIp : String
  dstIp : String
  snippet : String
deriving DecidableEq

structure SearchResult where
  total : ℕ
  hits : List SearchHit
  query : String

/-! ## Hunting -/

def fieldValue (doc : SearchDocument) (field : String) : String :=
  if field = "timestamp" then doc.timestamp
  else if field = "device_id" ∨ field = "device" then doc.deviceId
  else if field = "event_class" ∨ field = "class" then doc.eventClass
  else if field = "process_name" ∨ field = "process" then doc.processName
  else if field = "command_line" ∨ field = "cmd" then doc.commandLine
  else if field = "src_ip" ∨ field = "src" then doc.srcIp
  else if field = "dst_ip" ∨ field = "dst" then doc.dstIp
  else if field = "user_name" ∨ field = "user" then doc.userName
  else if field = "raw_text" ∨ field = "raw" then doc.rawText
  else ""

def contains (text part : String) : Bool := part.toList <:+: text.toList

def evaluatePredicate (lower : String → String) : HuntPredicate → SearchDocument → Bool
  | .fieldMatch field pattern, doc =>
    (wildcardMatch lower pattern (fieldValue doc field)).get (isSome_wildcardMatch ..)
  | .freeText text, doc =>
    let t := lower text
    contains (lower doc.rawText) t || contains (lower doc.processName) t ||
      contains (lower doc.commandLine) t || contains doc.srcIp t || contains doc.dstIp t ||
      contains (lower doc.userName) t || contains (lower doc.deviceId) t
  | .and a b, doc => evaluatePredicate lower a doc && evaluatePredicate lower b doc
  | .or a b, doc => evaluatePredicate lower a doc || evaluatePredicate lower b doc
  | .not inner, doc => !evaluatePredicate lower inner doc

def SearchDocument.hit (doc : SearchDocument) : SearchHit where
  score := 1
  timestamp := doc.timestamp
  deviceId := doc.deviceId
  eventClass := doc.eventClass
  processName := doc.processName
  srcIp := doc.srcIp
  dstIp := doc.dstIp
  snippet :=
    if doc.rawText ≠ "" then String.ofList (doc.rawText.toList.take 200)
    else doc.processName ++ " " ++ doc.commandLine ++ " " ++ doc.srcIp

def hunt (lower : String → String) (documents : List SearchDocument) (huntQuery : String) :
    Except HuntError SearchResult :=
  (parseHuntQuery huntQuery).map fun predicate =>
    let hits := (documents.filter (evaluatePredicate lower predicate)).map SearchDocument.hit
    ⟨hits.length, hits.take 100, huntQuery⟩

/-! ## Pipes -/

inductive HuntAggregation where
  | count (groupBy : Option String)
  | countDistinct (field : String)
  | top (n : ℕ) (field : String)
  | min (field : String)
  | max (field : String)
  | values (field : String)
deriving DecidableEq

/-- The function of the first token, with its arguments behind it. -/
def parseAggregation (aggPart : String) : List String → Except String HuntAggregation
  | [] => .error "missing aggregation after pipe"
  | name :: args =>
    if name = "count" then
      match args with
      | [] => .ok (.count none)
      | [_] => .error "count only supports `count` or `count by <field>`"
      | word :: field :: _ =>
        if word = "by" then .ok (.count (some field))
        else .error "count only supports `count` or `count by <field>`"
    else if name = "count_distinct" then
      match args with
      | field :: _ => .ok (.countDistinct field)
      | [] => .error "count_distinct requires a field"
    else if name = "top" then
      match args with
      | limit :: field :: _ =>
        match parseUnsigned 64 limit.toList with
        | some n => .ok (.top n field)
        | none => .error "top requires a numeric limit"
      | _ => .error "top requires `top <n> <field>`"
    else if name = "min" then
      match args with
      | field :: _ => .ok (.min field)
      | [] => .error "min requires a field"
    else if name = "max" then
      match args with
      | field :: _ => .ok (.max field)
      | [] => .error "max requires a field"
    else if name = "values" then
      match args with
      | field :: _ => .ok (.values field)
      | [] => .error "values requires a field"
    else .error ("unsupported aggregation: " ++ aggPart)

/-- The query before the first pipe, and the aggregation behind it. -/
def parseHuntPipe (lower : String → String) (input : String) :
    Except String (String × Option HuntAggregation) :=
  match splitOnce '|' input.toList with
  | none => .ok (input, none)
  | some (before, behind) =>
    let filter := String.ofList (trim before)
    let aggPart := trim behind
    if aggPart = [] then .error "missing aggregation after pipe"
    else
      let tokens := (words aggPart).map fun word => lower (String.ofList word)
      (parseAggregation (String.ofList aggPart) tokens).map fun agg => (filter, some agg)

/-! ## Aggregation -/

structure HuntAggBucket where
  key : String
  count : ℕ
deriving DecidableEq

structure HuntAggregationResult where
  query : String
  aggregation : String
  totalMatching : ℕ
  buckets : List HuntAggBucket
  scalar : Option String

inductive AggregationError where
  | pipe (message : String)
  | query (error : HuntError)

/-- A bucket for each key of a hash map that counts the keys, as it is walked through. -/
def keyCounts (o : IterationOrder String) (keys : List String) : List HuntAggBucket :=
  (groups o (keys.map fun key => (key, key))).map fun group => ⟨group.1, group.2.length⟩

def nonEmptyValues (docs : List SearchDocument) (field : String) : List String :=
  (docs.map fun doc => fieldValue doc field).filter fun value => value ≠ ""

def aggregate (o : IterationOrder String) (docs : List SearchDocument) :
    HuntAggregation → List HuntAggBucket × Option String
  | .count none => ([], some (toString docs.length))
  | .count (some field) =>
    let keys := docs.map fun doc =>
      let key := fieldValue doc field
      if key = "" then "(empty)" else key
    ((keyCounts o keys).insertionSort (Above HuntAggBucket.count), none)
  | .countDistinct field => ([], some (toString (nonEmptyValues docs field).dedup.length))
  | .top n field => (largest HuntAggBucket.count n (keyCounts o (nonEmptyValues docs field)), none)
  | .min field => ([], ((nonEmptyValues docs field).insertionSort (· ≤ ·)).head?)
  | .max field => ([], ((nonEmptyValues docs field).insertionSort (· ≤ ·)).getLast?)
  | .values field =>
    ((o.order (nonEmptyValues docs field).dedup).map fun key => ⟨key, 1⟩, none)

def HuntAggregation.description : HuntAggregation → String
  | .count (some f) => "count by " ++ f
  | .count none => "count"
  | .countDistinct field => "count_distinct " ++ field
  | .top n field => "top " ++ toString n ++ " " ++ field
  | .min field => "min " ++ field
  | .max field => "max " ++ field
  | .values field => "values " ++ field

/-- No predicate is parsed where the filter is empty or a star, and all documents match. -/
def matching (lower : String → String) (documents : List SearchDocument) (filter : String) :
    Except HuntError (List SearchDocument) :=
  if filter = "" ∨ filter = "*" then .ok documents
  else (parseHuntQuery filter).map fun predicate =>
    documents.filter (evaluatePredicate lower predicate)

def huntAggregate (o : IterationOrder String) (lower : String → String)
    (documents : List SearchDocument) (input : String) :
    Except AggregationError HuntAggregationResult :=
  match parseHuntPipe lower input with
  | .error e => .error (.pipe e)
  | .ok (filter, aggregation) =>
    match matching lower documents filter with
    | .error e => .error (.query e)
    | .ok docs =>
      let agg := aggregation.getD (.count none)
      let result := aggregate o docs agg
      .ok ⟨input, agg.description, docs.length, result.1, result.2⟩

end Wardex.Hunt
