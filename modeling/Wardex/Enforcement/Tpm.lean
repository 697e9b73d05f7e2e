import Wardex.Lib.KeyMap
import Wardex.Lib.Run
import Wardex.Spool.EncryptedSpool

/-! The software TPM: its registers, quotes over them, and data sealed under a policy.  SHA-256
and the clock are parameters.  The key of sealed data does not depend on the registers, so it can
be unsealed after every sequence of extensions. -/

namespace Wardex.Enforcement

open Wardex.Lib Wardex.Audit Wardex.Spool

def zeroRegister : List UInt8 := List.replicate 32 0

/-- `hex::decode`, with zeros where it fails. -/
def decodeDigest (digest : String) : List UInt8 :=
  match hexDecode (asBytes digest) with
  | .ok bytes => bytes
  | .error _ => zeroRegister

/-- There are 24 registers of 32 bytes. -/
structure SoftwareTpm where
  pcrs : KeyMap UInt8 (List UInt8)
  sealedStore : KeyMap String (List UInt8)
  endorsementKey : List UInt8
  banks : ∀ index, (pcrs index).isSome ↔ index < 24
  width : ∀ index register, pcrs index = some register → register.length = 32

structure TpmQuote where
  pcrValues : KeyMap UInt8 String
  nonce : String
  quoteDigest : String
  timestampMs : UInt64

structure SealedBlob where
  dataHash : String
  sealedBytes : List UInt8
  pcrPolicy : List UInt8
  creationTime : String

section

variable (sha256 : List UInt8 → Vector UInt8 32)

def digestHex (data : List UInt8) : String := sha256Hex (fun d => (sha256 d).toList) data

theorem decodeDigest_digestHex (data : List UInt8) :
    decodeDigest (digestHex sha256 data) = (sha256 data).toList := by
  rw [decodeDigest, digestHex, sha256Hex, hexDecode_hexEncode]

theorem length_decodeDigest (data : List UInt8) :
    (decodeDigest (digestHex sha256 data)).length = 32 := by
  rw [decodeDigest_digestHex]
  exact Vector.length_toList

namespace SoftwareTpm

def new : SoftwareTpm where
  pcrs index := if index < 24 then some zeroRegister else none
  sealedStore := .empty
  endorsementKey := asBytes (digestHex sha256 (asBytes "wardex-software-tpm-ek"))
  banks index := by
    split_ifs with h
    · exact iff_of_true rfl h
    · exact iff_of_false Bool.false_ne_true h
  width index register h := by
    split_ifs at h
    obtain rfl := Option.some.inj h
    exact List.length_replicate

/-- The register becomes the digest of what it held followed by the data. -/
def pcrExtend (tpm : SoftwareTpm) (index : UInt8) (data : List UInt8) : SoftwareTpm where
  pcrs := tpm.pcrs.modify index fun pcr => decodeDigest (digestHex sha256 (pcr ++ data))
  sealedStore := tpm.sealedStore
  endorsementKey := tpm.endorsementKey
  banks i := by
    rcases eq_or_ne i index with rfl | hne
    · rw [KeyMap.modify_self, Option.isSome_map]
      exact tpm.banks i
    · rw [KeyMap.modify_of_ne _ hne]
      exact tpm.banks i
  width i register h := by
    rcases eq_or_ne i index with rfl | hne
    · rw [KeyMap.modify_self] at h
      obtain ⟨pcr, -, rfl⟩ := Option.map_eq_some_iff.mp h
      exact length_decodeDigest sha256 _
    · rw [KeyMap.modify_of_ne _ hne] at h
      exact tpm.width i register h

/-- What the loop over the selection collects: the values, and the bytes the digest covers. -/
def measure (tpm : SoftwareTpm) (pcrSelection : List UInt8) : KeyMap UInt8 String × List UInt8 :=
  pcrSelection.foldl
    (fun acc idx => match tpm.pcrs idx with
      | some val => (acc.1.insert idx (hexEncode val), acc.2 ++ val)
      | none => acc)
    (.empty, [])

def quoteData (tpm : SoftwareTpm) (pcrSelection nonce : List UInt8) : List UInt8 :=
  (tpm.measure pcrSelection).2 ++ nonce

def quote (tpm : SoftwareTpm) (pcrSelection nonce : List UInt8) (now : UInt64) : TpmQuote where
  pcrValues := (tpm.measure pcrSelection).1
  nonce := hexEncode nonce
  quoteDigest := digestHex sha256 (tpm.quoteData pcrSelection nonce)
  timestampMs := now

/-- The key depends on the endorsement key and on the indices of the policy. -/
def deriveSealKey (tpm : SoftwareTpm) (pcrPolicy : List UInt8) : List UInt8 :=
  decodeDigest (digestHex sha256 (tpm.endorsementKey ++ pcrPolicy))

end SoftwareTpm

/-- The key is repeated along the data. -/
def xorKey (key data : List UInt8) : List UInt8 :=
  data.mapIdx fun i b => b ^^^ key.getD (i % key.length) 0

namespace SoftwareTpm

def «seal» (tpm : SoftwareTpm) (data pcrPolicy : List UInt8) (now : String) :
    SoftwareTpm × SealedBlob :=
  let dataHash := digestHex sha256 data
  let sealedBytes := xorKey (tpm.deriveSealKey sha256 pcrPolicy) data
  ({ tpm with sealedStore := tpm.sealedStore.insert dataHash sealedBytes },
    { dataHash, sealedBytes, pcrPolicy, creationTime := now })

def «unseal» (tpm : SoftwareTpm) (blob : SealedBlob) : Except String (List UInt8) :=
  let unsealed := xorKey (tpm.deriveSealKey sha256 blob.pcrPolicy) blob.sealedBytes
  if digestHex sha256 unsealed = blob.dataHash then .ok unsealed
  else .error "PCR state mismatch or data corrupted"

/-- The part of `boot_attest` that concerns the device: three measurements, then a quote over the
registers they went to. -/
def bootAttest (tpm : SoftwareTpm) (binaryHash configHash timestamp : String)
    (nonce : Vector UInt8 16) (now : UInt64) : SoftwareTpm × TpmQuote :=
  let tpm := tpm.pcrExtend sha256 0 (asBytes binaryHash)
  let tpm := tpm.pcrExtend sha256 1 (asBytes configHash)
  let tpm := tpm.pcrExtend sha256 7 (asBytes timestamp)
  (tpm, tpm.quote sha256 [0, 1, 7] nonce.toList now)

/-- A sequence of extensions, each of a register by some data. -/
def pcrExtends (tpm : SoftwareTpm) (calls : List (UInt8 × List UInt8)) : SoftwareTpm :=
  run (fun t call => t.pcrExtend sha256 call.1 call.2) tpm calls

end SoftwareTpm

end

/-! ## Sealed data -/

/-- The registers named by the policy hold the same values. -/
def PolicyHolds (pcrPolicy : List UInt8) (tpm tpm' : SoftwareTpm) : Prop :=
  ∀ index ∈ pcrPolicy, tpm'.pcrs index = tpm.pcrs index

variable (sha256 : List UInt8 → Vector UInt8 32)

/-- What is sealed is unsealed after the calls if and only if these leave the policy satisfied. -/
structure Bound (tpm : SoftwareTpm) (data pcrPolicy : List UInt8) (now : String)
    (calls : List (UInt8 × List UInt8)) : Prop where
  opens : PolicyHolds pcrPolicy tpm (tpm.pcrExtends sha256 calls) →
    ((tpm.seal sha256 data pcrPolicy now).1.pcrExtends sha256 calls).unseal sha256
      (tpm.seal sha256 data pcrPolicy now).2 = .ok data
  refuses : ¬ PolicyHolds pcrPolicy tpm (tpm.pcrExtends sha256 calls) →
    ∃ e, ((tpm.seal sha256 data pcrPolicy now).1.pcrExtends sha256 calls).unseal sha256
      (tpm.seal sha256 data pcrPolicy now).2 = .error e

theorem length_xorKey (key data : List UInt8) : (xorKey key data).length = data.length :=
  List.length_mapIdx

theorem xorKey_xorKey (key data : List UInt8) : xorKey key (xorKey key data) = data := by
  apply List.ext_getElem
  · rw [length_xorKey, length_xorKey]
  · intro i _ _
    simp only [xorKey, List.getElem_mapIdx]
    rw [UInt8.xor_assoc, UInt8.xor_self, UInt8.xor_zero]

variable {sha256} {tpm : SoftwareTpm}

theorem endorsementKey_pcrExtends (calls : List (UInt8 × List UInt8)) :
    (tpm.pcrExtends sha256 calls).endorsementKey = tpm.endorsementKey := by
  induction calls generalizing tpm with
  | nil => rfl
  | cons call calls ih => exact @ih (tpm.pcrExtend sha256 call.1 call.2)

/-- Extensions do not keep anything sealed. -/
theorem unseal_seal (data pcrPolicy : List UInt8) (now : String)
    (calls : List (UInt8 × List UInt8)) :
    ((tpm.seal sha256 data pcrPolicy now).1.pcrExtends sha256 calls).unseal sha256
      (tpm.seal sha256 data pcrPolicy now).2 = .ok data := by
  have hkey : ((tpm.seal sha256 data pcrPolicy now).1.pcrExtends sha256 calls).deriveSealKey sha256
      (tpm.seal sha256 data pcrPolicy now).2.pcrPolicy = tpm.deriveSealKey sha256 pcrPolicy := by
    rw [SoftwareTpm.deriveSealKey, endorsementKey_pcrExtends]
    rfl
  have hunsealed : xorKey (tpm.deriveSealKey sha256 pcrPolicy)
      (tpm.seal sha256 data pcrPolicy now).2.sealedBytes = data := xorKey_xorKey _ data
  have hhash : digestHex sha256 data = (tpm.seal sha256 data pcrPolicy now).2.dataHash := rfl
  rw [SoftwareTpm.unseal, hkey, hunsealed]
  exact if_pos hhash

theorem bound_iff (tpm : SoftwareTpm) (data pcrPolicy : List UInt8) (now : String)
    (calls : List (UInt8 × List UInt8)) :
    Bound sha256 tpm data pcrPolicy now calls ↔
      PolicyHolds pcrPolicy tpm (tpm.pcrExtends sha256 calls) := by
  constructor
  · intro h
    by_contra hchanged
    obtain ⟨e, he⟩ := h.refuses hchanged
    rw [unseal_seal] at he
    cases he
  · intro hholds
    exact ⟨fun _ => unseal_seal data pcrPolicy now calls, fun hnot => absurd hholds hnot⟩

/-- A digest that is the length of the data. -/
def lengthDigest (data : List UInt8) : Vector UInt8 32 :=
  Vector.replicate 32 (UInt8.ofNat data.length)

/-- Register 0 is extended, and what was sealed under it is still unsealed. -/
theorem extended_still_unseals :
    ¬ PolicyHolds [0] (.new lengthDigest)
        ((SoftwareTpm.new lengthDigest).pcrExtends lengthDigest [(0, [1])]) ∧
      ¬ Bound lengthDigest (.new lengthDigest) [7, 7, 7] [0] "2026-01-01T00:00:00+00:00"
        [(0, [1])] := by
  have hchanged : ¬ PolicyHolds [0] (.new lengthDigest)
      ((SoftwareTpm.new lengthDigest).pcrExtends lengthDigest [(0, [1])]) := by
    intro h
    have hzero : some (decodeDigest (digestHex lengthDigest (zeroRegister ++ [1]))) =
        some zeroRegister := h 0 List.mem_cons_self
    rw [decodeDigest_digestHex] at hzero
    exact absurd hzero (by decide)
  exact ⟨hchanged, fun h => hchanged ((bound_iff _ _ _ _ _).mp h)⟩

end Wardex.Enforcement
