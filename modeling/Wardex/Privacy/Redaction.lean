import Wardex.Audit.Log
import Wardex.Lib.Offsets
import Wardex.Lib.Text

/-! The redaction of forensic bundles.  SHA-256 is a parameter on byte strings; the loop over the
paths of a summary runs on fuel, and `none` says that the fuel gave out. -/

namespace Wardex.Privacy

open Wardex.Lib Wardex.Audit

inductive RedactionLevel where
  | full
  | standard
  | minimal
  | zeroKnowledge
deriving DecidableEq

structure RedactedRecord where
  sequence : Nat
  category : String
  summaryRedacted : String
  hash : String
deriving DecidableEq

structure RedactedForensicBundle where
  caseId : String
  redactionLevel : RedactionLevel
  summary : String
  auditChainHash : String
  redactedRecords : List RedactedRecord
  zkProofOfInclusion : String
deriving DecidableEq

def redactedIp : List Char := "[REDACTED-IP]".toList

def redactedPath : List Char := "[REDACTED_PATH]".toList

def homePrefix : List Char := "/home/".toList

def isDigitOrDot (c : Char) : Bool := c.isDigit || c == '.'

/-- A run of digits and dots is taken from its first digit that has three dots behind it. -/
def regexLiteReplaceIps : List Char → List Char
  | [] => []
  | c :: rest =>
    let run := (c :: rest).takeWhile isDigitOrDot
    if c.isDigit ∧ run.count '.' = 3 ∧ 7 ≤ run.length then
      redactedIp ++ regexLiteReplaceIps (rest.drop (run.length - 1))
    else c :: regexLiteReplaceIps rest
termination_by text => text.length
decreasing_by
  all_goals simp only [List.length_cons, List.length_drop]; omega

/-- A path reaches as far as the next white space. -/
def redactPaths : (fuel : Nat) → List Char → Option (List Char)
  | 0, _ => none
  | fuel + 1, s =>
    match splitFirst homePrefix s with
    | none => some s
    | some (before, after) =>
      let path := homePrefix ++ after
      redactPaths fuel (before ++ redactedPath ++ path.dropWhile fun c => !isWhiteSpace c)

section

variable (sha256 : List UInt8 → List UInt8)

def redactSummary (fuel : Nat) (level : RedactionLevel) (category summary : String) :
    Option String :=
  match level with
  | .full => some summary
  | .standard => (redactPaths fuel (regexLiteReplaceIps summary.toList)).map String.ofList
  | .minimal =>
    if "critical".toList <:+: summary.toList ∨ "severe".toList <:+: summary.toList then
      some ("[ALERT] " ++ category)
    else some ("[" ++ category ++ "]")
  | .zeroKnowledge => some "[REDACTED]"

/-- The records are given by their sequence number, category, summary and hash. -/
def redactRecord (fuel : Nat) (level : RedactionLevel) :
    Nat × String × String × String → Option RedactedRecord
  | (sequence, category, summary, hash) =>
    (redactSummary fuel level category summary).map fun summaryRedacted =>
      { sequence, category, summaryRedacted, hash }

/-- The bundle of redacted records, with a hash over all their hashes. -/
def bundleOf (caseId : String) (level : RedactionLevel) (redacted : List RedactedRecord) :
    RedactedForensicBundle :=
  let allHashes := ":".intercalate (redacted.map RedactedRecord.hash)
  let chainHash := sha256Hex sha256 (asBytes allHashes)
  let proof := sha256Hex sha256 (asBytes ("inclusion:" ++ caseId ++ ":" ++ chainHash))
  { caseId
    redactionLevel := level
    summary := toString redacted.length ++ " records, redaction applied"
    auditChainHash := chainHash
    redactedRecords := redacted
    zkProofOfInclusion := proof }

def redactForensicBundle (fuel : Nat) (caseId : String)
    (records : List (Nat × String × String × String)) (level : RedactionLevel) :
    Option RedactedForensicBundle :=
  (records.mapM (redactRecord fuel level)).map (bundleOf sha256 caseId level)

end

end Wardex.Privacy
