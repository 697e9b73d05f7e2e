import Wardex.Lib.HashChain

/-! The audit log: records chained by their hashes, checkpoints, retention, and the
verification of the chain.  SHA-256 itself is a parameter on byte strings. -/

namespace Wardex.Audit

/-- Lowercase hexadecimal, two characters a byte. -/
def hexEncode (bytes : List UInt8) : String :=
  String.ofList (bytes.flatMap fun b =>
    [(b.toNat / 16).digitChar, (b.toNat % 16).digitChar])

def asBytes (s : String) : List UInt8 := s.toByteArray.data.toList

section Digests

variable (sha256 : List UInt8 → List UInt8)

def sha256Hex (data : List UInt8) : String := hexEncode (sha256 data)

def blockSize : Nat := 64

def hmacSha256Hex (key data : List UInt8) : String :=
  let short := if key.length > blockSize then sha256 key else key
  let keyBlock := short ++ List.replicate (blockSize - short.length) 0
  let ipad := keyBlock.map fun b => 0x36 ^^^ b
  let opad := keyBlock.map fun b => 0x5c ^^^ b
  hexEncode (sha256 (opad ++ sha256 (ipad ++ data)))

end Digests

structure AuditRecord where
  sequence : Nat
  category : String
  summary : String
  previousHash : String
  currentHash : String
deriving DecidableEq

structure AuditCheckpoint where
  afterSequence : Nat
  cumulativeHash : String
  signature : String
deriving DecidableEq

/-- An empty `hmacKey` marks checkpoints as unsigned. -/
structure AuditLog where
  previousHash : String
  records : List AuditRecord
  checkpoints : List AuditCheckpoint
  checkpointInterval : Nat
  hmacKey : String
deriving DecidableEq

/-- `"0".repeat(64)`. -/
def genesis : String := String.ofList (List.replicate 64 '0')

/-- What the hash of a record covers. -/
def payload (previousHash category summary : String) : String :=
  previousHash ++ "|" ++ category ++ "|" ++ summary

namespace AuditLog

def withCheckpointInterval (interval : Nat) : AuditLog where
  previousHash := genesis
  records := []
  checkpoints := []
  checkpointInterval := interval
  hmacKey := ""

def new : AuditLog := withCheckpointInterval 0

def setHmacKey (log : AuditLog) (key : String) : AuditLog := { log with hmacKey := key }

variable (sha256 : List UInt8 → List UInt8)

def insertCheckpoint (log : AuditLog) : AuditLog :=
  let seq := log.records.length
  let cumulative := log.previousHash
  let sigPayload := "checkpoint|" ++ toString seq ++ "|" ++ cumulative
  let signature := if log.hmacKey = "" then "unsigned:" ++ sha256Hex sha256 (asBytes sigPayload)
    else hmacSha256Hex sha256 (asBytes log.hmacKey) (asBytes sigPayload)
  { log with checkpoints := log.checkpoints ++
    [{ afterSequence := seq, cumulativeHash := cumulative, signature := signature }] }

def record (log : AuditLog) (category summary : String) : AuditLog :=
  let currentHash := sha256Hex sha256 (asBytes (payload log.previousHash category summary))
  let entry : AuditRecord :=
    { sequence := log.records.length + 1, category := category, summary := summary,
      previousHash := log.previousHash, currentHash := currentHash }
  let log := { log with previousHash := currentHash, records := log.records ++ [entry] }
  if log.checkpointInterval > 0 ∧ log.records.length % log.checkpointInterval = 0 then
    log.insertCheckpoint sha256
  else log

/-- The loop of `verify_chain`. -/
def verifyRecords (expectedPrev : String) : List AuditRecord → Except String Unit
  | [] => .ok ()
  | r :: rest =>
    if r.previousHash ≠ expectedPrev then
      .error ("chain broken at sequence " ++ toString r.sequence ++ ": expected prev " ++
        expectedPrev ++ " got " ++ r.previousHash)
    else
      let computed := sha256Hex sha256 (asBytes (payload r.previousHash r.category r.summary))
      if r.currentHash ≠ computed then
        .error ("hash mismatch at sequence " ++ toString r.sequence ++ ": expected " ++
          computed ++ " got " ++ r.currentHash)
      else verifyRecords r.currentHash rest

def verifyChain (log : AuditLog) : Except String Unit :=
  verifyRecords sha256 genesis log.records

/-- Retention keeps the last `maxRecords` records and relinks the first of them. -/
def applyRetention (log : AuditLog) (maxRecords : Nat) : AuditLog × Nat :=
  if maxRecords = 0 ∨ log.records.length ≤ maxRecords then (log, 0)
  else
    let trim := log.records.length - maxRecords
    let records := match log.records.drop trim with
      | [] => []
      | first :: rest => { first with previousHash := genesis } :: rest
    let previousHash := records.getLast?.elim genesis AuditRecord.currentHash
    ({ log with previousHash := previousHash, records := records }, trim)

end AuditLog

end Wardex.Audit
