import Mathlib.Algebra.Group.Nat.Defs
import Mathlib.Data.List.Lex
import Mathlib.Order.Compare
import Wardex.Enrollment.Registry
import Wardex.Lib.Decimal
import Wardex.Lib.Fallible
import Wardex.Lib.KeyMap
import Wardex.Lib.Run

/-! Releases of the agent, their signatures and the order of their versions, and the store of the
server: published binaries as files by name, and the list of releases that names them.  The hash,
base64, the JSON of a payload and Ed25519 are parameters. -/

namespace Wardex.Updates

open Wardex.Lib Wardex.Audit Wardex.Enrollment

/-- The name holds `..`, `/` or `\`. -/
def traverses (name : String) : Bool :=
  ['.', '.'] <:+: name.toList ∨ '/' ∈ name.toList ∨ '\\' ∈ name.toList

structure Release where
  version : String
  platform : String
  sha256 : String
  fileName : String
  fileSize : Nat
  releaseNotes : String
  mandatory : Bool
  publishedAt : String
  signature : Option String
  signerPubkey : Option String
  signedAt : Option String
  signaturePayloadSha256 : Option String
  updateCounter : Option Nat
deriving DecidableEq

structure ReleaseSignaturePayload where
  version : String
  platform : String
  sha256 : String
  fileName : String
  fileSize : Nat
  mandatory : Bool
  releaseNotesSha256 : String
  signedAt : String
  updateCounter : Nat
deriving DecidableEq

structure ReleaseSignature where
  signature : String
  signerPubkey : String
  signedAt : String
  signaturePayloadSha256 : String
  updateCounter : Nat

/-- The libraries the code calls.  Signing keys and signatures are byte strings; a verifying key
is what its bytes are read as. -/
structure Crypto (Key : Type) where
  sha256 : List UInt8 → List UInt8
  encode : List UInt8 → String
  decode : String → Except String (List UInt8)
  toVec : ReleaseSignaturePayload → Except String (List UInt8)
  fromBytes : List UInt8 → Except String Key
  verify : Key → List UInt8 → List UInt8 → Bool
  sign : List UInt8 → List UInt8 → List UInt8
  verifyingKey : List UInt8 → List UInt8

section

variable {Key : Type} (crypto : Crypto Key)

def canonicalReleaseSignaturePayload (p : ReleaseSignaturePayload) : Except String (List UInt8) :=
  (crypto.toVec p).mapError fun e => "serialize update signature payload: " ++ e

def releaseSignaturePayloadSha256 (p : ReleaseSignaturePayload) : Except String String := do
  let bytes ← canonicalReleaseSignaturePayload crypto p
  return sha256Hex crypto.sha256 bytes

def signReleasePayload (p : ReleaseSignaturePayload) (signingKey : List UInt8) :
    Except String ReleaseSignature := do
  ensure (signingKey.length = 32) "update signing key must be 32 bytes"
  let bytes ← canonicalReleaseSignaturePayload crypto p
  let hash ← releaseSignaturePayloadSha256 crypto p
  return {
    signature := crypto.encode (crypto.sign signingKey bytes)
    signerPubkey := crypto.encode (crypto.verifyingKey signingKey)
    signedAt := p.signedAt
    signaturePayloadSha256 := hash
    updateCounter := p.updateCounter }

def verifyReleasePayloadSignature (p : ReleaseSignaturePayload) (signature signerPubkey
    signaturePayloadSha256 : String) : Except String Unit := do
  let expected ← releaseSignaturePayloadSha256 crypto p
  ensure (expected = signaturePayloadSha256) "update signature payload hash mismatch"
  let pkBytes ← (crypto.decode signerPubkey).mapError fun e =>
    "decode update signer public key: " ++ e
  ensure (pkBytes.length = 32) "update signer public key must be 32 bytes"
  let key ← (crypto.fromBytes pkBytes).mapError fun e => "invalid update signer: " ++ e
  let sigBytes ← (crypto.decode signature).mapError fun e => "decode update signature: " ++ e
  ensure (sigBytes.length = 64) "update signature must be 64 bytes"
  let bytes ← canonicalReleaseSignaturePayload crypto p
  ensure (crypto.verify key bytes sigBytes = true) "invalid update signature"

namespace Release

def signaturePayload (r : Release) (signedAt : String) (updateCounter : Nat) :
    ReleaseSignaturePayload where
  version := r.version
  platform := r.platform
  sha256 := r.sha256
  fileName := r.fileName
  fileSize := r.fileSize
  mandatory := r.mandatory
  releaseNotesSha256 := sha256Hex crypto.sha256 (asBytes r.releaseNotes)
  signedAt := signedAt
  updateCounter := updateCounter

def attachSignature (chrono : Chrono) (r : Release) (signingKey : List UInt8)
    (updateCounter : Nat) (now : Int) : Except String Release := do
  let signedAt := chrono.format now
  let signature ← signReleasePayload crypto (r.signaturePayload crypto signedAt updateCounter)
    signingKey
  return { r with
    signature := some signature.signature
    signerPubkey := some signature.signerPubkey
    signedAt := some signedAt
    signaturePayloadSha256 := some signature.signaturePayloadSha256
    updateCounter := some updateCounter }

def verifySignatureWithTrustedKeys (r : Release) (trusted : List String) (strict : Bool) :
    Except String Unit :=
  match r.signature with
  | none => if strict then .error "missing update signature" else .ok ()
  | some signature => do
    let signerPubkey ← okOr r.signerPubkey "missing update signer public key"
    let signedAt ← okOr r.signedAt "missing update signature timestamp"
    let hash ← okOr r.signaturePayloadSha256 "missing update signature payload hash"
    let counter ← okOr r.updateCounter "missing update counter"
    ensure (trusted = [] ∨ signerPubkey ∈ trusted) "untrusted update signer"
    verifyReleasePayloadSignature crypto (r.signaturePayload crypto signedAt counter) signature
      signerPubkey hash

def verifySignatureForBinary (r : Release) (binary : List UInt8) (trusted : List String)
    (strict : Bool) : Except String Unit :=
  let actual := sha256Hex crypto.sha256 binary
  if actual ≠ r.sha256 then
    .error ("SHA mismatch: expected " ++ r.sha256 ++ ", got " ++ actual)
  else r.verifySignatureWithTrustedKeys crypto trusted strict

end Release

def verifyUpdateCounter (updateCounter : Nat) (lastAccepted : Option Nat) : Except String Unit :=
  match lastAccepted with
  | some last =>
    if updateCounter ≤ last then
      .error ("replayed update counter " ++ toString updateCounter ++ " is not newer than " ++
        toString last)
    else .ok ()
  | none => .ok ()

/-- The numbers of a version; a piece that is not a 32-bit number counts as 0. -/
def versionParts (v : String) : List Nat :=
  (v.toList.splitOn '.').map fun piece => (parseUnsigned 32 piece).getD 0

def versionCmp (a b : String) : Ordering := cmp (versionParts a) (versionParts b)

def verifyUpdateNotDowngrade (currentVersion targetVersion : String) (allowDowngrade : Bool) :
    Except String Unit :=
  if !allowDowngrade ∧ versionCmp targetVersion currentVersion = .lt then
    .error ("downgrade from " ++ currentVersion ++ " to " ++ targetVersion ++ " rejected")
  else .ok ()

/-! ## What a successful check says -/

/-- Under the key that `signerPubkey` spells, `signature` is an Ed25519 signature of the JSON of
the payload. -/
def Signs (signerPubkey signature : String) (p : ReleaseSignaturePayload) : Prop :=
  ∃ pk key sig bytes, crypto.decode signerPubkey = .ok pk ∧ crypto.fromBytes pk = .ok key ∧
    crypto.decode signature = .ok sig ∧ crypto.toVec p = .ok bytes ∧
      crypto.verify key bytes sig = true

/-- The release carries a signature of its own fields by one of the signers. -/
def Release.SignedBy (r : Release) (signers : List String) : Prop :=
  ∃ signer ∈ signers, ∃ signature signedAt counter, r.signerPubkey = some signer ∧
    r.signature = some signature ∧ r.signedAt = some signedAt ∧ r.updateCounter = some counter ∧
      Signs crypto signer signature (r.signaturePayload crypto signedAt counter)

theorem verifyUpdateCounter_eq_ok {counter : Nat} {last : Option Nat} {u : Unit} :
    verifyUpdateCounter counter last = .ok u ↔ ∀ l ∈ last, l < counter := by
  cases last with
  | none => exact iff_of_true rfl fun l hl => absurd hl (Option.not_mem_none l)
  | some l =>
    rw [verifyUpdateCounter]
    split_ifs with h
    · refine iff_of_false (fun hok => ?_) fun hall => absurd (hall l rfl) (Nat.not_lt.mpr h)
      cases hok
    · exact iff_of_true rfl fun _ hl => Option.some.inj hl ▸ Nat.not_le.mp h

theorem versionCmp_eq_lt {a b : String} :
    versionCmp a b = .lt ↔ versionParts a < versionParts b := by
  unfold versionCmp cmp cmpUsing
  split_ifs with hlt hgt
  · exact iff_of_true rfl hlt
  · exact iff_of_false nofun hlt
  · exact iff_of_false nofun hlt

theorem verifyUpdateNotDowngrade_eq_ok {current target : String} {u : Unit} :
    verifyUpdateNotDowngrade current target false = .ok u ↔
      versionCmp target current ≠ .lt := by
  unfold verifyUpdateNotDowngrade
  split_ifs with h
  · exact iff_of_false nofun fun hne => hne h.2
  · exact iff_of_true rfl fun hlt => h ⟨rfl, hlt⟩

variable {crypto}

theorem signs_of_verifyReleasePayloadSignature {p : ReleaseSignaturePayload}
    {signature signerPubkey hash : String}
    (h : verifyReleasePayloadSignature crypto p signature signerPubkey hash = .ok ()) :
    Signs crypto signerPubkey signature p := by
  simp only [verifyReleasePayloadSignature, canonicalReleaseSignaturePayload, bind_eq_ok,
    mapError_eq_ok, ensure_eq_ok] at h
  obtain ⟨-, -, -, -, pk, hpk, -, -, key, hkey, sig, hsig, -, -, bytes, hbytes, hverify⟩ := h
  exact ⟨pk, key, sig, bytes, hpk, hkey, hsig, hbytes, hverify⟩

theorem exists_signReleasePayload {p : ReleaseSignaturePayload} {signingKey : List UInt8} :
    (∃ s, signReleasePayload crypto p signingKey = .ok s) ↔
      signingKey.length = 32 ∧ ∃ bytes, crypto.toVec p = .ok bytes := by
  simp only [signReleasePayload, releaseSignaturePayloadSha256, canonicalReleaseSignaturePayload,
    bind_eq_ok, mapError_eq_ok, ensure_eq_ok, pure_eq_ok]
  constructor
  · rintro ⟨_, -, hlength, bytes, hbytes, -⟩
    exact ⟨hlength, bytes, hbytes⟩
  · rintro ⟨hlength, bytes, hbytes⟩
    exact ⟨_, (), hlength, bytes, hbytes, _, ⟨bytes, hbytes, rfl⟩, rfl⟩

theorem Release.exists_attachSignature {chrono : Chrono} {r : Release} {signingKey : List UInt8}
    {counter : Nat} {now : Int} :
    (∃ r', r.attachSignature crypto chrono signingKey counter now = .ok r') ↔
      signingKey.length = 32 ∧
        ∃ bytes, crypto.toVec (r.signaturePayload crypto (chrono.format now) counter) =
          .ok bytes := by
  rw [← exists_signReleasePayload]
  simp only [attachSignature, bind_eq_ok, pure_eq_ok]
  constructor
  · rintro ⟨_, s, hs, -⟩
    exact ⟨s, hs⟩
  · rintro ⟨s, hs⟩
    exact ⟨_, s, hs, rfl⟩

/-- A signature changes only the fields it fills in. -/
theorem Release.attachSignature_eq_ok {chrono : Chrono} {r r' : Release} {signingKey : List UInt8}
    {counter : Nat} {now : Int}
    (h : r.attachSignature crypto chrono signingKey counter now = .ok r') :
    r'.fileName = r.fileName ∧ r'.sha256 = r.sha256 ∧ r'.fileSize = r.fileSize ∧
      r'.updateCounter = some counter := by
  simp only [attachSignature, bind_eq_ok, pure_eq_ok] at h
  obtain ⟨s, -, rfl⟩ := h
  exact ⟨rfl, rfl, rfl, rfl⟩

theorem Release.signedBy_of_verify {r : Release} {binary : List UInt8} {signers : List String}
    (hsigners : signers ≠ []) (h : r.verifySignatureForBinary crypto binary signers true = .ok ()) :
    sha256Hex crypto.sha256 binary = r.sha256 ∧ r.SignedBy crypto signers := by
  unfold verifySignatureForBinary at h
  dsimp only at h
  split_ifs at h with hsha
  refine ⟨not_not.mp hsha, ?_⟩
  unfold verifySignatureWithTrustedKeys at h
  cases hsignature : r.signature with
  | none =>
    rw [hsignature] at h
    cases h
  | some signature =>
    rw [hsignature] at h
    simp only [bind_eq_ok, okOr_eq_ok, ensure_eq_ok] at h
    obtain ⟨signer, hsigner, signedAt, hsigned, hash, -, counter, hcounter, -, htrusted, hverify⟩ :=
      h
    exact ⟨signer, htrusted.resolve_left hsigners, signature, signedAt, counter,
      hsigner, hsignature, hsigned, hcounter, signs_of_verifyReleasePayloadSignature hverify⟩

/-- Primitives with the identity as the hash and nothing signed. -/
def identityHash : Crypto Unit where
  sha256 := id
  encode _ := ""
  decode _ := .error "Invalid input length"
  toVec _ := .error "not serialized"
  fromBytes _ := .ok ()
  verify _ _ _ := false
  sign _ _ := []
  verifyingKey _ := []

end

/-! ## The release store -/

/-- `releases/` by file name, and the list written to `releases.json`. -/
structure Disk where
  files : KeyMap String (List UInt8)
  index : List Release

structure UpdateManager where
  releases : List Release
  disk : Disk

def releaseFileName (version platform : String) : String :=
  "wardex-" ++ version ++ "-" ++ platform

namespace UpdateManager

/-- A manager over an empty store directory. -/
def new : UpdateManager := ⟨[], ⟨KeyMap.empty, []⟩⟩

def counters (m : UpdateManager) : List Nat := m.releases.filterMap Release.updateCounter

def nextUpdateCounter (m : UpdateManager) : Nat := (m.counters.max?.getD 0 + 1) % 2 ^ 64

def save (m : UpdateManager) : UpdateManager :=
  { m with disk := { m.disk with index := m.releases } }

variable {Key : Type} (crypto : Crypto Key) (chrono : Chrono) (write : String → Except String Unit)

/-- The release as it is before it is signed. -/
def unsigned (version platform : String) (binary : List UInt8) (releaseNotes : String)
    (mandatory : Bool) (now : Int) : Release where
  version := version
  platform := platform
  sha256 := sha256Hex crypto.sha256 binary
  fileName := releaseFileName version platform
  fileSize := binary.length
  releaseNotes := releaseNotes
  mandatory := mandatory
  publishedAt := chrono.format now
  signature := none
  signerPubkey := none
  signedAt := none
  signaturePayloadSha256 := none
  updateCounter := none

/-- The signing step: nothing without a key. -/
def sign (counter : Nat) (release : Release) (signingKey : Option (List UInt8)) (signedNow : Int) :
    Except String Release :=
  match signingKey with
  | none => .ok release
  | some key => release.attachSignature crypto chrono key counter signedNow

/-- `write` says which names the file system takes.  The clock is read at `now` and, for the
signature, at `signedNow`. -/
def publishReleaseInner (m : UpdateManager) (version platform : String) (binary : List UInt8)
    (releaseNotes : String) (mandatory : Bool) (signingKey : Option (List UInt8))
    (now signedNow : Int) : UpdateManager × Except String Release :=
  if traverses version ∨ traverses platform then (m, .error "invalid version or platform name")
  else
    let release := unsigned crypto chrono version platform binary releaseNotes mandatory now
    match write release.fileName with
    | .error e => (m, .error ("failed to write release binary: " ++ e))
    | .ok _ =>
      let m := { m with
        disk := { m.disk with files := m.disk.files.insert release.fileName binary } }
      match sign crypto chrono m.nextUpdateCounter release signingKey signedNow with
      | .error e => (m, .error e)
      | .ok release => (save { m with releases := m.releases ++ [release] }, .ok release)

def publishRelease (m : UpdateManager) (version platform : String) (binary : List UInt8)
    (releaseNotes : String) (mandatory : Bool) (now : Int) :
    UpdateManager × Except String Release :=
  m.publishReleaseInner crypto chrono write version platform binary releaseNotes mandatory none
    now now

def publishSignedRelease (m : UpdateManager) (version platform : String) (binary : List UInt8)
    (releaseNotes : String) (mandatory : Bool) (signingKey : List UInt8) (now signedNow : Int) :
    UpdateManager × Except String Release :=
  m.publishReleaseInner crypto chrono write version platform binary releaseNotes mandatory
    (some signingKey) now signedNow

def getReleaseBinary (m : UpdateManager) (fileName : String) : Except String (List UInt8) :=
  if traverses fileName then .error "invalid file name"
  else okOr (m.disk.files fileName) "release not found"

def listReleases (m : UpdateManager) : List Release := m.releases

def getReleaseByFileName (m : UpdateManager) (fileName : String) : Option Release :=
  m.releases.find? fun r => r.fileName = fileName

end UpdateManager

end Wardex.Updates
