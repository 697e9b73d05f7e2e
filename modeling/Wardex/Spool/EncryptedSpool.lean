import Mathlib.Tactic.IntervalCases
import Wardex.Audit.Log
import Wardex.Lib.Text

/-! The encrypted spool: a bounded queue of encrypted entries with delivery counters, and its
persisted form, which goes through hexadecimal for an entry and UTF-8 for the whole, with the errors
a reader of them reports.  SHA-256, the random nonces and the JSON library are parameters. -/

namespace Wardex.Spool

open Wardex.Lib Wardex.Audit

inductive FromHexError where
  | invalidHexCharacter (c : UInt8) (index : Nat)
  | oddLength
deriving DecidableEq

def latin1 (c : UInt8) : Char := Char.ofNat c.toNat

/-- The debug text of a character below 256. -/
def debugChar (c : UInt8) : String :=
  let escaped :=
    if c = 0 then "\\0"
    else if c = 9 then "\\t"
    else if c = 10 then "\\n"
    else if c = 13 then "\\r"
    else if c = 39 then "\\'"
    else if c = 92 then "\\\\"
    else if c < 32 ∨ (127 ≤ c ∧ c < 160) ∨ c = 173 then
      "\\u\x7b" ++ String.ofList (Nat.toDigits 16 c.toNat) ++ "\x7d"
    else String.singleton (latin1 c)
  "'" ++ escaped ++ "'"

def FromHexError.message : FromHexError → String
  | invalidHexCharacter c index =>
    "Invalid character " ++ debugChar c ++ " at position " ++ toString index
  | oddLength => "Odd number of digits"

def hexVal (c : UInt8) (index : Nat) : Except FromHexError UInt8 :=
  if 65 ≤ c ∧ c ≤ 70 then .ok (c - 65 + 10)
  else if 97 ≤ c ∧ c ≤ 102 then .ok (c - 97 + 10)
  else if 48 ≤ c ∧ c ≤ 57 then .ok (c - 48)
  else .error (.invalidHexCharacter c index)

def hexPairs (index : Nat) : List UInt8 → Except FromHexError (List UInt8)
  | [] => .ok []
  | [_] => .error .oddLength
  | a :: b :: rest => do
    let high ← hexVal a index
    let low ← hexVal b (index + 1)
    let bytes ← hexPairs (index + 2) rest
    return (high <<< 4 ||| low) :: bytes

/-- The length is looked at before any character. -/
def hexDecode (line : List UInt8) : Except FromHexError (List UInt8) :=
  if line.length % 2 ≠ 0 then .error .oddLength else hexPairs 0 line

/-- Where `from_utf8` stops, and after how many bytes of a character it could have been. -/
structure Utf8Error where
  validUpTo : Nat
  errorLen : Option Nat
deriving DecidableEq

def Utf8Error.message (e : Utf8Error) : String :=
  match e.errorLen with
  | some n => "invalid utf-8 sequence of " ++ toString n ++ " bytes from index " ++
      toString e.validUpTo
  | none => "incomplete utf-8 byte sequence from index " ++ toString e.validUpTo

/-- The bytes that may follow the first byte of a character. -/
def continuations (first : UInt8) : Option (List (UInt8 × UInt8)) :=
  let rest : UInt8 × UInt8 := (0x80, 0xBF)
  if first < 0x80 then some []
  else if 0xC2 ≤ first ∧ first ≤ 0xDF then some [rest]
  else if first = 0xE0 then some [(0xA0, 0xBF), rest]
  else if first = 0xED then some [(0x80, 0x9F), rest]
  else if 0xE1 ≤ first ∧ first ≤ 0xEF then some [rest, rest]
  else if first = 0xF0 then some [(0x90, 0xBF), rest, rest]
  else if 0xF1 ≤ first ∧ first ≤ 0xF3 then some [rest, rest, rest]
  else if first = 0xF4 then some [(0x80, 0x8F), rest, rest]
  else none

/-- How many of the bytes are as they may be, and whether the bytes end before the character. -/
def accepted : List (UInt8 × UInt8) → List UInt8 → Nat × Bool
  | [], _ => (0, false)
  | _ :: _, [] => (0, true)
  | (low, high) :: ranges, b :: bytes =>
    if low ≤ b ∧ b ≤ high then ((accepted ranges bytes).1 + 1, (accepted ranges bytes).2)
    else (0, false)

/-- The first error of a byte sequence, scanned from `index` with at most `fuel` characters. -/
def utf8ErrorFrom : (fuel index : Nat) → List UInt8 → Utf8Error
  | 0, index, _ => ⟨index, none⟩
  | _ + 1, index, [] => ⟨index, none⟩
  | fuel + 1, index, first :: bytes =>
    match continuations first with
    | none => ⟨index, some 1⟩
    | some ranges =>
      let (taken, ended) := accepted ranges bytes
      if taken = ranges.length then utf8ErrorFrom fuel (index + taken + 1) (bytes.drop taken)
      else if ended then ⟨index, none⟩
      else ⟨index, some (taken + 1)⟩

def fromUtf8 (data : List UInt8) : Except Utf8Error String :=
  match String.fromUTF8? data.toByteArray with
  | some text => .ok text
  | none => .error (utf8ErrorFrom data.length 0 data)

theorem asBytes_ofList (text : List Char) :
    asBytes (String.ofList text) = text.flatMap String.utf8EncodeChar := by
  rw [asBytes, String.toByteArray_ofList, List.utf8Encode, List.toList_data_toByteArray]

theorem fromUtf8_asBytes (s : String) : fromUtf8 (asBytes s) = .ok s := by
  have hbytes : (asBytes s).toByteArray = s.toByteArray := by
    apply ByteArray.ext
    rw [List.data_toByteArray, asBytes, Array.toArray_toList]
  rw [fromUtf8, hbytes, String.fromUTF8?, dif_pos s.isValidUTF8]
  rfl

/-- The characters of the hexadecimal text. -/
def hexChars (bytes : List UInt8) : List Char :=
  bytes.flatMap fun b => [(b.toNat / 16).digitChar, (b.toNat % 16).digitChar]

theorem hexEncode_eq (bytes : List UInt8) : hexEncode bytes = String.ofList (hexChars bytes) := rfl

theorem digitChar_encode {d : Nat} (h : d < 16) : ∃ b : UInt8,
    String.utf8EncodeChar d.digitChar = [b] ∧ hexVal b = fun _ => .ok (UInt8.ofNat d) := by
  interval_cases d <;> exact ⟨_, rfl, rfl⟩

theorem nibbles (b : UInt8) :
    UInt8.ofNat (b.toNat / 16) <<< 4 ||| UInt8.ofNat (b.toNat % 16) = b := by
  have hb : b.toNat < 256 := b.toNat_lt
  have hhigh : b.toNat / 16 % 2 ^ 8 * 2 ^ 4 % 2 ^ 8 = b.toNat / 16 * 2 ^ 4 := by omega
  have hlow : b.toNat % 16 % 2 ^ 8 = b.toNat % 16 := by omega
  apply UInt8.toNat_inj.mp
  rw [UInt8.toNat_or, UInt8.toNat_shiftLeft, UInt8.toNat_ofNat', UInt8.toNat_ofNat',
    Nat.shiftLeft_eq]
  change b.toNat / 16 % 2 ^ 8 * 2 ^ 4 % 2 ^ 8 ||| b.toNat % 16 % 2 ^ 8 = b.toNat
  -- the low half fits below the high half, so the two do not overlap
  rw [hhigh, hlow, ← Nat.shiftLeft_eq, ← Nat.shiftLeft_add_eq_or_of_lt (Nat.mod_lt _ (by decide)),
    Nat.shiftLeft_eq]
  exact Nat.div_add_mod' b.toNat 16

theorem hexPairs_hexChars (bytes : List UInt8) (index : Nat) :
    hexPairs index ((hexChars bytes).flatMap String.utf8EncodeChar) = .ok bytes ∧
      ((hexChars bytes).flatMap String.utf8EncodeChar).length % 2 = 0 := by
  induction bytes generalizing index with
  | nil => exact ⟨rfl, rfl⟩
  | cons b bytes ih =>
    have hb : b.toNat < 256 := b.toNat_lt
    obtain ⟨high, hhigh, hvhigh⟩ := digitChar_encode (d := b.toNat / 16) (by omega)
    obtain ⟨low, hlow, hvlow⟩ := digitChar_encode (d := b.toNat % 16) (by omega)
    have hbytes : (hexChars (b :: bytes)).flatMap String.utf8EncodeChar =
        high :: low :: (hexChars bytes).flatMap String.utf8EncodeChar := by
      simp only [hexChars, List.flatMap_cons, List.flatMap_append, List.flatMap_nil, hhigh, hlow]
      rfl
    obtain ⟨hpairs, heven⟩ := ih (index + 2)
    rw [hbytes]
    constructor
    · rw [hexPairs, hvhigh, hvlow, hpairs]
      change Except.ok (_ :: bytes) = _
      rw [nibbles]
    · rw [List.length_cons, List.length_cons]
      omega

theorem hexDecode_hexEncode (bytes : List UInt8) :
    hexDecode (asBytes (hexEncode bytes)) = .ok bytes := by
  obtain ⟨hpairs, heven⟩ := hexPairs_hexChars bytes 0
  rw [hexEncode_eq, asBytes_ofList, hexDecode, if_neg (by rw [heven]; decide), hpairs]

/-! ## The spool -/

abbrev Nonce := Vector UInt8 16

section Cipher

variable (sha256 : List UInt8 → Vector UInt8 32)

def leBytes (counter : BitVec 128) : List UInt8 :=
  (List.range 16).map fun i => UInt8.ofNat (counter.toNat / 256 ^ i)

/-- The keystream is one digest for every 32 bytes, counted from `counter`. -/
def cipherBlocks (key : List UInt8) (nonce : Nonce) (counter : BitVec 128) (data : List UInt8) :
    List UInt8 :=
  if data = [] then []
  else
    let block := sha256 (key ++ nonce.toList ++ leBytes counter)
    List.zipWith (· ^^^ ·) (data.take 32) block.toList ++
      cipherBlocks key nonce (counter + 1) (data.drop 32)
termination_by data.length
decreasing_by
  rw [List.length_drop]
  have := List.length_pos_of_ne_nil ‹data ≠ []›
  omega

def spoolCipherCore (data key : List UInt8) (nonce : Nonce) : List UInt8 :=
  cipherBlocks sha256 key nonce 0 data

def spoolEncrypt (data key : List UInt8) (nonce : Nonce) : List UInt8 :=
  nonce.toList ++ spoolCipherCore sha256 data key nonce

def spoolDecrypt (data key : List UInt8) : List UInt8 :=
  if h : (data.take 16).toArray.size = 16 then
    spoolCipherCore sha256 (data.drop 16) key ⟨(data.take 16).toArray, h⟩
  else []

theorem zipWith_xor_xor (data pad : List UInt8) (h : data.length ≤ pad.length) :
    List.zipWith (· ^^^ ·) (List.zipWith (· ^^^ ·) data pad) pad = data := by
  induction data generalizing pad with
  | nil => rfl
  | cons b data ih =>
    cases pad with
    | nil => simp at h
    | cons p pad =>
      rw [List.zipWith_cons_cons, List.zipWith_cons_cons, ih pad (Nat.le_of_succ_le_succ h),
        UInt8.xor_assoc, UInt8.xor_self, UInt8.xor_zero]

/-- The keystream does not depend on the data, so applying it twice takes it off again. -/
theorem cipherBlocks_cipherBlocks (key : List UInt8) (nonce : Nonce) (counter : BitVec 128)
    (data : List UInt8) :
    cipherBlocks sha256 key nonce counter (cipherBlocks sha256 key nonce counter data) = data := by
  fun_induction cipherBlocks sha256 key nonce counter data with
  | case1 => rw [cipherBlocks, if_pos rfl]
  | case2 counter data hne block ih =>
    have hpos : 0 < data.length := List.length_pos_of_ne_nil hne
    have hblock : block.toList.length = 32 := Vector.length_toList
    have hfront : (List.zipWith (· ^^^ ·) (data.take 32) block.toList).length =
        min 32 data.length := by
      rw [List.length_zipWith, List.length_take, hblock]
      omega
    have hnonempty : List.zipWith (· ^^^ ·) (data.take 32) block.toList ++
        cipherBlocks sha256 key nonce (counter + 1) (data.drop 32) ≠ [] := by
      apply List.ne_nil_of_length_pos
      rw [List.length_append, hfront]
      omega
    have hpad : (data.take 32).length ≤ block.toList.length := by
      rw [List.length_take, hblock]
      exact Nat.min_le_left 32 data.length
    -- a short block is the last one
    have hsplit : (List.zipWith (· ^^^ ·) (data.take 32) block.toList ++
          cipherBlocks sha256 key nonce (counter + 1) (data.drop 32)).take 32 =
            List.zipWith (· ^^^ ·) (data.take 32) block.toList ∧
        (List.zipWith (· ^^^ ·) (data.take 32) block.toList ++
          cipherBlocks sha256 key nonce (counter + 1) (data.drop 32)).drop 32 =
            cipherBlocks sha256 key nonce (counter + 1) (data.drop 32) := by
      rcases Nat.lt_or_ge data.length 32 with hlt | hge
      · rw [List.drop_eq_nil_of_le hlt.le, cipherBlocks, if_pos rfl, List.append_nil]
        have hshort : (List.zipWith (· ^^^ ·) (data.take 32) block.toList).length ≤ 32 := by
          rw [hfront]
          exact Nat.min_le_left 32 data.length
        exact ⟨List.take_of_length_le hshort, List.drop_eq_nil_of_le hshort⟩
      · rw [Nat.min_eq_left hge] at hfront
        exact ⟨List.take_left' hfront, List.drop_left' hfront⟩
    rw [cipherBlocks, if_neg hnonempty]
    dsimp only
    rw [hsplit.1, hsplit.2, ih, zipWith_xor_xor _ _ hpad, List.take_append_drop]

theorem spoolDecrypt_spoolEncrypt (data key : List UInt8) (nonce : Nonce) :
    spoolDecrypt sha256 (spoolEncrypt sha256 data key nonce) key = data := by
  have hnonce : nonce.toList.length = 16 := Vector.length_toList
  have htake : (spoolEncrypt sha256 data key nonce).take 16 = nonce.toList := by
    rw [spoolEncrypt, List.take_left' hnonce]
  have hdrop : (spoolEncrypt sha256 data key nonce).drop 16 =
      spoolCipherCore sha256 data key nonce := by
    rw [spoolEncrypt, List.drop_left' hnonce]
  have hsize : (nonce.toList).toArray.size = 16 := hnonce
  unfold spoolDecrypt
  simp only [htake, hdrop, dif_pos hsize]
  exact cipherBlocks_cipherBlocks sha256 key nonce 0 data

end Cipher

structure SpoolEntry where
  seq : UInt64
  enqueuedAt : String
  attempts : UInt32
  payload : String
  destination : String
  tenantId : Option String
deriving DecidableEq

structure SpoolPersistHeader where
  nextSeq : UInt64
  totalEnqueued : UInt64
  totalDelivered : UInt64
  totalDropped : UInt64
  entryCount : UInt64
deriving DecidableEq

/-- The JSON library at the types of the spool. -/
structure SerdeJson where
  entryToVec : SpoolEntry → List UInt8
  entryFromSlice : List UInt8 → Option SpoolEntry
  headerFromStr : String → Except String SpoolPersistHeader

/-- The JSON text of a header. -/
def SpoolPersistHeader.text (h : SpoolPersistHeader) : String :=
  "\x7b\"next_seq\":" ++ toString h.nextSeq.toNat ++
    ",\"total_enqueued\":" ++ toString h.totalEnqueued.toNat ++
    ",\"total_delivered\":" ++ toString h.totalDelivered.toNat ++
    ",\"total_dropped\":" ++ toString h.totalDropped.toNat ++
    ",\"entry_count\":" ++ toString h.entryCount.toNat ++ "\x7d"

structure EncryptedSpool where
  queue : List (List UInt8)
  key : List UInt8
  maxEntries : Nat
  nextSeq : UInt64
  totalEnqueued : UInt64
  totalDelivered : UInt64
  totalDropped : UInt64
  maxRetries : UInt32
  key_ne : key ≠ []

namespace EncryptedSpool

def tryNew (key : List UInt8) (maxEntries : Nat) : Except String EncryptedSpool :=
  if h : key = [] then .error "Spool encryption key must not be empty"
  else .ok
    { queue := []
      key := key
      maxEntries := maxEntries
      nextSeq := 1
      totalEnqueued := 0
      totalDelivered := 0
      totalDropped := 0
      maxRetries := 5
      key_ne := h }

def len (s : EncryptedSpool) : Nat := s.queue.length

theorem tryNew_ok {key : List UInt8} {maxEntries : Nat} {s : EncryptedSpool}
    (h : tryNew key maxEntries = .ok s) :
    s.len = 0 ∧ s.maxEntries = maxEntries ∧ s.totalEnqueued = 0 ∧ s.totalDelivered = 0 ∧
      s.totalDropped = 0 := by
  unfold tryNew at h
  split_ifs at h
  cases h
  exact ⟨rfl, rfl, rfl, rfl, rfl⟩

variable (sha256 : List UInt8 → Vector UInt8 32) (json : SerdeJson)

def enqueueWithTenant (s : EncryptedSpool) (payload destination timestamp : String)
    (tenantId : Option String) (nonce : Nonce) : EncryptedSpool × UInt64 :=
  let entry : SpoolEntry :=
    { seq := s.nextSeq, enqueuedAt := timestamp, attempts := 0, payload := payload,
      destination := destination, tenantId := tenantId }
  let encrypted := spoolEncrypt sha256 (json.entryToVec entry) s.key nonce
  let s' := { s with nextSeq := s.nextSeq + 1, totalEnqueued := s.totalEnqueued + 1 }
  let s' := if s'.queue.length ≥ s'.maxEntries then
      { s' with queue := s'.queue.tail, totalDropped := s'.totalDropped + 1 }
    else s'
  ({ s' with queue := s'.queue ++ [encrypted] }, s.nextSeq)

def enqueue (s : EncryptedSpool) (payload destination timestamp : String) (nonce : Nonce) :
    EncryptedSpool × UInt64 :=
  s.enqueueWithTenant sha256 json payload destination timestamp none nonce

/-- What an entry of the queue decrypts and parses to. -/
def read (s : EncryptedSpool) (encrypted : List UInt8) : Option SpoolEntry :=
  json.entryFromSlice (spoolDecrypt sha256 encrypted s.key)

def entriesForTenant (s : EncryptedSpool) (tenantId : String) : List SpoolEntry :=
  (s.queue.filterMap (s.read sha256 json)).filter fun e => e.tenantId = some tenantId

def peekForTenant (s : EncryptedSpool) (tenantId : String) : Option SpoolEntry :=
  s.queue.findSome? fun encrypted =>
    match s.read sha256 json encrypted with
    | some e => if e.tenantId = some tenantId then some e else none
    | none => none

/-- An entry that cannot be read is taken from the queue and counted like any other. -/
def dequeue (s : EncryptedSpool) : EncryptedSpool × Option SpoolEntry :=
  match s.queue with
  | [] => (s, none)
  | encrypted :: rest =>
    ({ s with queue := rest, totalDelivered := s.totalDelivered + 1 },
      s.read sha256 json encrypted)

def dequeueForTenant (s : EncryptedSpool) (tenantId : String) :
    EncryptedSpool × Option SpoolEntry :=
  let position := s.queue.findIdx? fun encrypted =>
    match s.read sha256 json encrypted with
    | some e => e.tenantId = some tenantId
    | none => false
  match position with
  | none => (s, none)
  | some pos =>
    match s.queue[pos]? with
    | none => (s, none)
    | some encrypted =>
      ({ s with queue := s.queue.eraseIdx pos, totalDelivered := s.totalDelivered + 1 },
        s.read sha256 json encrypted)

/-- Back to the end of the queue, whatever the queue holds, unless the retries are used up. -/
def nack (s : EncryptedSpool) (entry : SpoolEntry) (nonce : Nonce) :
    EncryptedSpool × Option SpoolEntry :=
  let entry := { entry with attempts := entry.attempts + 1 }
  if entry.attempts > s.maxRetries then ({ s with totalDropped := s.totalDropped + 1 }, none)
  else
    let encrypted := spoolEncrypt sha256 (json.entryToVec entry) s.key nonce
    ({ s with queue := s.queue ++ [encrypted] }, some entry)

variable {sha256 json} in
theorem length_dequeue {s s' : EncryptedSpool} {entry : SpoolEntry}
    (h : s.dequeue sha256 json = (s', some entry)) : s'.queue.length < s.queue.length := by
  unfold dequeue at h
  split at h
  · cases h
  · rename_i encrypted rest hqueue
    obtain ⟨rfl, -⟩ := Prod.mk.inj h
    rw [hqueue, List.length_cons]
    exact Nat.lt_succ_self _

/-- Dequeues until nothing comes: the queue is empty, or an entry could not be read. -/
def drainAll (s : EncryptedSpool) : EncryptedSpool × List SpoolEntry :=
  match _h : s.dequeue sha256 json with
  | (s', none) => (s', [])
  | (s', some entry) => ((s'.drainAll).1, entry :: (s'.drainAll).2)
termination_by s.queue.length
decreasing_by all_goals exact length_dequeue _h

/-- What stays in the queue and what leaves it; an entry that cannot be read does neither. -/
def splitTenant (s : EncryptedSpool) (tenantId : String) :
    List (List UInt8) → List (List UInt8) × List SpoolEntry
  | [] => ([], [])
  | encrypted :: rest =>
    let (remaining, results) := s.splitTenant tenantId rest
    match s.read sha256 json encrypted with
    | some entry =>
      if entry.tenantId = some tenantId then (remaining, entry :: results)
      else (encrypted :: remaining, results)
    | none => (remaining, results)

def drainForTenant (s : EncryptedSpool) (tenantId : String) : EncryptedSpool × List SpoolEntry :=
  let (remaining, results) := s.splitTenant sha256 json tenantId s.queue
  ({ s with
     queue := remaining
     totalDelivered := s.totalDelivered + UInt64.ofNat results.length }, results)

def header (s : EncryptedSpool) : SpoolPersistHeader where
  nextSeq := s.nextSeq
  totalEnqueued := s.totalEnqueued
  totalDelivered := s.totalDelivered
  totalDropped := s.totalDropped
  entryCount := UInt64.ofNat s.queue.length

def persist (s : EncryptedSpool) : List UInt8 :=
  asBytes s.header.text ++ [10] ++ s.queue.flatMap fun e => asBytes (hexEncode e) ++ [10]

/-- The entries in the lines after the header. -/
def readEntries : List (List Char) → Except String (List (List UInt8))
  | [] => .ok []
  | line :: rest =>
    if line = [] then readEntries rest
    else
      match hexDecode (asBytes (String.ofList line)) with
      | .error e => .error ("Invalid hex: " ++ e.message)
      | .ok encrypted => (readEntries rest).map (encrypted :: ·)

/-- All of the data is looked at before any of it is used. -/
def readPersisted (data : List UInt8) :
    Except String (SpoolPersistHeader × List (List UInt8)) := do
  let text ← (fromUtf8 data).mapError Utf8Error.message
  match lines text.toList with
  | [] => .error "Empty persist data"
  | headerLine :: rest =>
    let header ← (json.headerFromStr (String.ofList headerLine)).mapError ("Invalid header: " ++ ·)
    let queue ← readEntries rest
    if queue.length ≠ header.entryCount.toNat then
      .error ("Entry count mismatch: expected " ++ toString header.entryCount.toNat ++ ", got " ++
        toString queue.length)
    else .ok (header, queue)

/-- The spool with the counters of `header` and this queue. -/
def resumed (s : EncryptedSpool) (header : SpoolPersistHeader) (queue : List (List UInt8)) :
    EncryptedSpool :=
  { s with
    nextSeq := header.nextSeq
    totalEnqueued := header.totalEnqueued
    totalDelivered := header.totalDelivered
    totalDropped := header.totalDropped
    queue := queue }

def restore (s : EncryptedSpool) (data : List UInt8) : EncryptedSpool × Except String Nat :=
  match readPersisted json data with
  | .error e => (s, .error e)
  | .ok (header, queue) => (s.resumed header queue, .ok queue.length)

end EncryptedSpool

end Wardex.Spool
