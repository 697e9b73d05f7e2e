import Wardex.Audit.Chain
import Wardex.Lib.Run
import Wardex.Lib.Text
import Wardex.Updates.Release

/-! The trust policy of updates, what `verify_release_artifact` accepts under it, and what the
updates accepted one after the other have in common.  The hash of the binary is compared only when
the release is signed, so that an unsigned one passes with any binary of the right length while the
grace period lasts. -/

namespace Wardex.Updates

open Wardex.Lib Wardex.Audit Wardex.Enrollment

section

def bundledTrustedUpdateSigners : List String := ["6kpsY+KcUgq+9VB7Ey7F+ZVHdq6+vnuSQh7qaRRG0iw="]

structure UpdateSigningSettings where
  requireSignedUpdates : Bool
  trustedUpdateSigners : List String
  legacyUnsignedGraceUntil : Option String
  lastAcceptedUpdateCounter : Option Nat

structure UpdateTrustPolicy where
  requireSignedUpdates : Bool
  trustedUpdateSigners : List String
  legacyUnsignedGraceUntil : Option String
  lastAcceptedUpdateCounter : Option Nat

structure UpdateVerification where
  signatureStatus : String
  signerPubkey : Option String
  signaturePayloadSha256 : Option String
  updateCounter : Option Nat
deriving DecidableEq

namespace UpdateTrustPolicy

/-- The loop body of `from_settings`. -/
def addSigner (signers : List String) (signer : String) : List String :=
  let trimmed := String.ofList (trim signer.toList)
  if trimmed ≠ "" ∧ trimmed ∉ signers then signers ++ [trimmed] else signers

def fromSettings (settings : UpdateSigningSettings) : UpdateTrustPolicy where
  requireSignedUpdates := settings.requireSignedUpdates
  trustedUpdateSigners := settings.trustedUpdateSigners.foldl addSigner bundledTrustedUpdateSigners
  legacyUnsignedGraceUntil := settings.legacyUnsignedGraceUntil
  lastAcceptedUpdateCounter := settings.lastAcceptedUpdateCounter

def signaturesRequiredNow (chrono : Chrono) (policy : UpdateTrustPolicy) (now : Int) : Bool :=
  if policy.requireSignedUpdates then true
  else
    match policy.legacyUnsignedGraceUntil with
    | some raw =>
      match chrono.parse raw with
      | some cutoff => cutoff < now
      | none => true
    | none => true

theorem fromSettings_trusted_ne_nil (settings : UpdateSigningSettings) :
    (fromSettings settings).trustedUpdateSigners ≠ [] := by
  have hkeep :
      ∀ (added signers : List String), signers ≠ [] → added.foldl addSigner signers ≠ [] := by
    intro added
    induction added with
    | nil => exact fun _ h => h
    | cons signer added ih =>
      intro signers h
      apply ih
      unfold addSigner
      dsimp only
      split_ifs
      · exact List.append_ne_nil_of_left_ne_nil h _
      · exact h
  exact hkeep _ _ (List.cons_ne_nil _ _)

end UpdateTrustPolicy

variable {Key : Type} (crypto : Crypto Key) (chrono : Chrono)

def verifyReleaseArtifact (r : Release) (binary : List UInt8) (policy : UpdateTrustPolicy)
    (currentVersion : String) (lastAccepted : Option Nat) (allowDowngrade : Bool) (now : Int) :
    Except String UpdateVerification := do
  ensure (r.fileSize = binary.length) ("update artifact size mismatch: expected " ++
    toString r.fileSize ++ ", got " ++ toString binary.length)
  verifyUpdateNotDowngrade currentVersion r.version allowDowngrade
  if r.signature = none then
    -- the hash of the binary is not looked at here
    ensure (policy.signaturesRequiredNow chrono now = false) "missing update signature"
    return {
      signatureStatus := "legacy_unsigned_grace"
      signerPubkey := none
      signaturePayloadSha256 := none
      updateCounter := none }
  else
    r.verifySignatureForBinary crypto binary policy.trustedUpdateSigners true
    let updateCounter ← okOr r.updateCounter "missing update counter"
    if allowDowngrade = false then verifyUpdateCounter updateCounter lastAccepted
    return {
      signatureStatus := "signed"
      signerPubkey := r.signerPubkey
      signaturePayloadSha256 := r.signaturePayloadSha256
      updateCounter := some updateCounter }

variable {crypto chrono}

/-- Everything an acceptance has checked. -/
theorem verifyReleaseArtifact_cases {r : Release} {binary : List UInt8} {policy : UpdateTrustPolicy}
    {current : String} {last : Option Nat} {now : Int} {v : UpdateVerification}
    (htrusted : policy.trustedUpdateSigners ≠ [])
    (h : verifyReleaseArtifact crypto chrono r binary policy current last false now = .ok v) :
    (r.fileSize = binary.length ∧ versionCmp r.version current ≠ .lt) ∧
    ((r.signature = none ∧ policy.signaturesRequiredNow chrono now = false ∧
        v = ⟨"legacy_unsigned_grace", none, none, none⟩) ∨
      ((sha256Hex crypto.sha256 binary = r.sha256 ∧
          r.SignedBy crypto policy.trustedUpdateSigners) ∧
        ∃ counter, r.updateCounter = some counter ∧ (∀ l ∈ last, l < counter) ∧
          v = ⟨"signed", r.signerPubkey, r.signaturePayloadSha256, some counter⟩)) := by
  unfold verifyReleaseArtifact at h
  simp only [bind_eq_ok, ensure_eq_ok, verifyUpdateNotDowngrade_eq_ok] at h
  obtain ⟨-, hsize, -, hversion, h⟩ := h
  refine ⟨⟨hsize, hversion⟩, ?_⟩
  split_ifs at h with hsignature
  · simp only [bind_eq_ok, ensure_eq_ok, pure_eq_ok] at h
    obtain ⟨-, hgrace, rfl⟩ := h
    exact .inl ⟨hsignature, hgrace, rfl⟩
  · simp only [bind_eq_ok, okOr_eq_ok, verifyUpdateCounter_eq_ok, pure_eq_ok] at h
    obtain ⟨⟨⟩, hverify, counter, hcounter, -, hlast, rfl⟩ := h
    exact .inr ⟨Release.signedBy_of_verify htrusted hverify, counter, hcounter, hlast, rfl⟩

variable (crypto chrono)

/-! ## A sequence of updates -/

/-- A release and a binary presented at some instant. -/
structure Presented where
  release : Release
  binary : List UInt8
  now : Int

structure Accepted where
  release : Release
  binary : List UInt8
  verification : UpdateVerification
deriving DecidableEq

/-- What the caller keeps, with the updates it has accepted, the oldest first. -/
structure Installation where
  currentVersion : String
  lastAcceptedCounter : Option Nat
  accepted : List Accepted
deriving DecidableEq

namespace Installation

def new (version : String) (counter : Option Nat) : Installation := ⟨version, counter, []⟩

def present (policy : UpdateTrustPolicy) (i : Installation) (p : Presented) : Installation :=
  match verifyReleaseArtifact crypto chrono p.release p.binary policy i.currentVersion
    i.lastAcceptedCounter false p.now with
  | .error _ => i
  | .ok verification =>
    { currentVersion := p.release.version
      lastAcceptedCounter := verification.updateCounter.or i.lastAcceptedCounter
      accepted := i.accepted ++ [⟨p.release, p.binary, verification⟩] }

end Installation

end

/-! ## What is accepted -/

variable {Key : Type} (crypto : Crypto Key) (chrono : Chrono)

/-- The ideal primitives: no two texts have one hash or one JSON, and a signature is valid for one
message under a key. -/
structure Crypto.Ideal : Prop where
  sha256_injective : Function.Injective crypto.sha256
  toVec_injective : ∀ p q bytes, crypto.toVec p = .ok bytes → crypto.toVec q = .ok bytes → p = q
  verify_unique : ∀ key m m' sig, crypto.verify key m sig = true → crypto.verify key m' sig = true →
    m = m'

/-- The signature of the release is one of no other version, platform, hash, file name, size,
flag or notes. -/
def Release.CoveredExactly (signers : List String) (r : Release) : Prop :=
  ∀ r' : Release, r'.SignedBy crypto signers → r'.signature = r.signature →
    r'.signerPubkey = r.signerPubkey →
      r'.version = r.version ∧ r'.platform = r.platform ∧ r'.sha256 = r.sha256 ∧
        r'.fileName = r.fileName ∧ r'.fileSize = r.fileSize ∧ r'.mandatory = r.mandatory ∧
          r'.releaseNotes = r.releaseNotes

namespace Accepted

def Intact (a : Accepted) : Prop :=
  sha256Hex crypto.sha256 a.binary = a.release.sha256 ∧ a.binary.length = a.release.fileSize

def Signed (a : Accepted) : Prop := a.verification.signatureStatus = "signed"

/-- Both are signed only if the counter of the later one is larger. -/
def Counted (a b : Accepted) : Prop :=
  a.Signed → b.Signed → ∃ c d, a.release.updateCounter = some c ∧
    b.release.updateCounter = some d ∧ c < d

end Accepted

namespace Installation

/-- The versions that were installed, the oldest first. -/
def versions (start : String) (i : Installation) : List String :=
  start :: i.accepted.map fun a => a.release.version

structure Sound (policy : UpdateTrustPolicy) (start : String) (i : Installation) : Prop where
  intact : ∀ a ∈ i.accepted, a.Intact crypto
  signed : ∀ a ∈ i.accepted, a.Signed →
    a.release.SignedBy crypto policy.trustedUpdateSigners ∧
      a.release.CoveredExactly crypto policy.trustedUpdateSigners
  counted : i.accepted.Pairwise Accepted.Counted
  ascending : (i.versions start).Pairwise fun v w => versionCmp w v ≠ .lt

/-- An unsigned release that passes every check in its grace period comes with its own binary. -/
def HashChecked (policy : UpdateTrustPolicy) (i : Installation) (p : Presented) : Prop :=
  p.release.signature = none → policy.signaturesRequiredNow chrono p.now = false →
    p.release.fileSize = p.binary.length → versionCmp p.release.version i.currentVersion ≠ .lt →
      sha256Hex crypto.sha256 p.binary = p.release.sha256

/-- With `Sound`: the stored counter and version bound those of every accepted update. -/
structure Inv (policy : UpdateTrustPolicy) (start : String) (i : Installation) : Prop where
  sound : i.Sound crypto policy start
  counter : ∀ a ∈ i.accepted, a.Signed → ∃ c last, a.release.updateCounter = some c ∧
    i.lastAcceptedCounter = some last ∧ c ≤ last
  version : ∀ v ∈ i.versions start, versionCmp i.currentVersion v ≠ .lt

end Installation

variable {crypto chrono}

theorem Crypto.Ideal.coveredExactly (ideal : crypto.Ideal) (signers : List String) (r : Release)
    (h : r.SignedBy crypto signers) : r.CoveredExactly crypto signers := by
  intro r' h' hsignature hsigner
  obtain ⟨signer, -, signature, signedAt, counter, hpk, hsig, -, -, pk, key, sig, bytes, hdecode,
    hkey, hsigBytes, hbytes, hverify⟩ := h
  obtain ⟨signer', -, signature', signedAt', counter', hpk', hsig', -, -, pk', key', sig', bytes',
    hdecode', hkey', hsigBytes', hbytes', hverify'⟩ := h'
  obtain rfl : signer' = signer := Option.some.inj (hpk'.symm.trans (hsigner.trans hpk))
  obtain rfl : signature' = signature := Option.some.inj (hsig'.symm.trans (hsignature.trans hsig))
  obtain rfl : pk' = pk := Except.ok.inj (hdecode'.symm.trans hdecode)
  obtain rfl : key' = key := Except.ok.inj (hkey'.symm.trans hkey)
  obtain rfl : sig' = sig := Except.ok.inj (hsigBytes'.symm.trans hsigBytes)
  obtain rfl := ideal.verify_unique _ _ _ _ hverify' hverify
  have hpayload := ideal.toVec_injective _ _ _ hbytes' hbytes
  have hfields := ReleaseSignaturePayload.mk.inj hpayload
  obtain ⟨hversion, hplatform, hsha, hname, hsize, hmandatory, hnotes, -, -⟩ := hfields
  refine ⟨hversion, hplatform, hsha, hname, hsize, hmandatory, ?_⟩
  exact asBytes_injective (ideal.sha256_injective (hexEncode_injective hnotes))

theorem versionCmp_trans {a b c : String} (hab : versionCmp b a ≠ .lt)
    (hbc : versionCmp c b ≠ .lt) : versionCmp c a ≠ .lt := by
  rw [Ne, versionCmp_eq_lt, not_lt] at hab hbc ⊢
  exact hab.trans hbc

namespace Installation

variable {policy : UpdateTrustPolicy} {start : String} {i : Installation} {p : Presented}

theorem inv_new (start : String) (counter : Option Nat) :
    (new start counter).Inv crypto policy start where
  sound :=
    { intact := List.forall_mem_nil _
      signed := List.forall_mem_nil _
      counted := List.Pairwise.nil
      ascending := List.pairwise_singleton _ _ }
  counter := List.forall_mem_nil _
  version := by
    intro v hv
    obtain rfl := List.mem_singleton.mp hv
    rw [Ne, versionCmp_eq_lt]
    exact lt_irrefl _

/-- A presented update is either turned down, with nothing changed, or has passed the checks. -/
theorem present_cases (htrusted : policy.trustedUpdateSigners ≠ []) (i : Installation)
    (p : Presented) : i.present crypto chrono policy p = i ∨
      ∃ v, (p.release.fileSize = p.binary.length ∧
          versionCmp p.release.version i.currentVersion ≠ .lt) ∧
        ((p.release.signature = none ∧ policy.signaturesRequiredNow chrono p.now = false ∧
            v = ⟨"legacy_unsigned_grace", none, none, none⟩) ∨
          ((sha256Hex crypto.sha256 p.binary = p.release.sha256 ∧
              p.release.SignedBy crypto policy.trustedUpdateSigners) ∧
            ∃ counter, p.release.updateCounter = some counter ∧
              (∀ l ∈ i.lastAcceptedCounter, l < counter) ∧ v = ⟨"signed", p.release.signerPubkey,
                p.release.signaturePayloadSha256, some counter⟩)) ∧
        i.present crypto chrono policy p =
          { currentVersion := p.release.version
            lastAcceptedCounter := v.updateCounter.or i.lastAcceptedCounter
            accepted := i.accepted ++ [⟨p.release, p.binary, v⟩] } := by
  unfold present
  cases hverify : verifyReleaseArtifact crypto chrono p.release p.binary policy i.currentVersion
    i.lastAcceptedCounter false p.now with
  | error e => exact .inl rfl
  | ok v =>
    obtain ⟨hchecks, hcases⟩ := verifyReleaseArtifact_cases htrusted hverify
    exact .inr ⟨v, hchecks, hcases, rfl⟩

/-- One more accepted update: an unsigned one leaves the counter, a signed one raises it. -/
theorem Inv.accept (ideal : crypto.Ideal) (h : i.Inv crypto policy start) (a : Accepted)
    {last : Option Nat} (hintact : a.Intact crypto)
    (hversion : versionCmp a.release.version i.currentVersion ≠ .lt)
    (hlast : (¬ a.Signed ∧ last = i.lastAcceptedCounter) ∨
      (a.release.SignedBy crypto policy.trustedUpdateSigners ∧
        ∃ counter, a.release.updateCounter = some counter ∧
          (∀ l ∈ i.lastAcceptedCounter, l < counter) ∧ last = some counter)) :
    Inv crypto policy start ⟨a.release.version, last, i.accepted ++ [a]⟩ := by
  -- what was below the old version and the old counter is below the new ones
  have hbelow : ∀ v ∈ i.versions start, versionCmp a.release.version v ≠ .lt :=
    fun v hv => versionCmp_trans (h.version v hv) hversion
  have hversions : (⟨a.release.version, last, i.accepted ++ [a]⟩ : Installation).versions start =
      i.versions start ++ [a.release.version] := by
    simp only [versions, List.map_append, List.map_cons, List.map_nil, List.cons_append]
  constructor
  case sound =>
    constructor
    case intact => exact List.forall_mem_append.mpr ⟨h.sound.intact, by simpa using hintact⟩
    case signed =>
      refine List.forall_mem_append.mpr ⟨h.sound.signed, List.forall_mem_singleton.mpr ?_⟩
      intro hsigned
      obtain ⟨hnot, -⟩ | ⟨hby, -⟩ := hlast
      · exact absurd hsigned hnot
      · exact ⟨hby, ideal.coveredExactly _ _ hby⟩
    case counted =>
      refine List.pairwise_append.mpr ⟨h.sound.counted, List.pairwise_singleton _ _, ?_⟩
      intro b hb
      refine List.forall_mem_singleton.mpr fun hbsigned hsigned => ?_
      obtain ⟨c, l, hc, hl, hle⟩ := h.counter b hb hbsigned
      obtain ⟨hnot, -⟩ | ⟨-, counter, hcounter, habove, -⟩ := hlast
      · exact absurd hsigned hnot
      · exact ⟨c, counter, hc, hcounter, hle.trans_lt (habove l hl)⟩
    case ascending =>
      rw [hversions]
      refine List.pairwise_append.mpr ⟨h.sound.ascending, List.pairwise_singleton _ _, ?_⟩
      exact fun v hv => List.forall_mem_singleton.mpr (hbelow v hv)
  case counter =>
    obtain ⟨hnot, rfl⟩ | ⟨-, counter, hcounter, habove, rfl⟩ := hlast
    · exact List.forall_mem_append.mpr
        ⟨h.counter, List.forall_mem_singleton.mpr fun hsigned => absurd hsigned hnot⟩
    · refine List.forall_mem_append.mpr ⟨fun b hb hbsigned => ?_, ?_⟩
      · obtain ⟨c, l, hc, hl, hle⟩ := h.counter b hb hbsigned
        exact ⟨c, counter, hc, rfl, hle.trans (habove l hl).le⟩
      · exact List.forall_mem_singleton.mpr fun _ => ⟨counter, counter, hcounter, rfl, le_rfl⟩
  case version =>
    rw [hversions]
    refine List.forall_mem_append.mpr ⟨hbelow, List.forall_mem_singleton.mpr ?_⟩
    rw [Ne, versionCmp_eq_lt]
    exact lt_irrefl _

theorem not_signed_grace (r : Release) (binary : List UInt8) :
    ¬ Accepted.Signed ⟨r, binary, ⟨"legacy_unsigned_grace", none, none, none⟩⟩ := by
  show ¬ "legacy_unsigned_grace" = "signed"
  decide

theorem inv_present (ideal : crypto.Ideal) (htrusted : policy.trustedUpdateSigners ≠ [])
    (h : i.Inv crypto policy start) (hchecked : i.HashChecked crypto chrono policy p) :
    (i.present crypto chrono policy p).Inv crypto policy start := by
  obtain hsame | ⟨v, ⟨hsize, hversion⟩, hcases, hnext⟩ := present_cases htrusted i p
  · rwa [hsame]
  rw [hnext]
  obtain ⟨hsignature, hgrace, rfl⟩ | ⟨⟨hsha, hby⟩, counter, hcounter, habove, rfl⟩ := hcases
  · have hsha := hchecked hsignature hgrace hsize hversion
    have hunsigned := not_signed_grace p.release p.binary
    exact h.accept ideal ⟨p.release, p.binary, _⟩ ⟨hsha, hsize.symm⟩ hversion
      (.inl ⟨hunsigned, rfl⟩)
  · exact h.accept ideal ⟨p.release, p.binary, _⟩ ⟨hsha, hsize.symm⟩ hversion
      (.inr ⟨hby, counter, hcounter, habove, rfl⟩)

theorem hashChecked_of_present
    (h : (i.present crypto chrono policy p).Sound crypto policy start) :
    i.HashChecked crypto chrono policy p := by
  intro hsignature hgrace hsize hversion
  have hnext : verifyReleaseArtifact crypto chrono p.release p.binary policy i.currentVersion
      i.lastAcceptedCounter false p.now = .ok ⟨"legacy_unsigned_grace", none, none, none⟩ := by
    unfold verifyReleaseArtifact
    rw [if_pos hsignature]
    simp only [bind_eq_ok, ensure_eq_ok, verifyUpdateNotDowngrade_eq_ok, pure_eq_ok]
    exact ⟨(), hsize, (), hversion, (), hgrace, trivial⟩
  have hlast : (⟨p.release, p.binary, ⟨"legacy_unsigned_grace", none, none, none⟩⟩ : Accepted) ∈
      (i.present crypto chrono policy p).accepted := by
    rw [present, hnext]
    exact List.mem_append_right _ (List.mem_singleton_self _)
  exact (h.intact _ hlast).1

/-- The grace period of unsigned releases lasts until one in the morning. -/
def graceSettings : UpdateSigningSettings where
  requireSignedUpdates := false
  trustedUpdateSigners := []
  legacyUnsignedGraceUntil := some "1970-01-01T01:00:00+00:00"
  lastAcceptedUpdateCounter := none

/-- An unsigned release of the two bytes 1 and 2, hashed by the identity. -/
def unsignedRelease : Release where
  version := "2.0.1"
  platform := "linux"
  sha256 := "0102"
  fileName := "wardex-2.0.1-linux"
  fileSize := 2
  releaseNotes := ""
  mandatory := false
  publishedAt := "1970-01-01T00:00:00+00:00"
  signature := none
  signerPubkey := none
  signedAt := none
  signaturePayloadSha256 := none
  updateCounter := none

def signedPayload : ReleaseSignaturePayload where
  version := "2.0.0"
  platform := "linux"
  sha256 := "0304"
  fileName := "wardex-2.0.0-linux"
  fileSize := 2
  mandatory := false
  releaseNotesSha256 := ""
  signedAt := "1970-01-01T00:00:00+00:00"
  updateCounter := 1

def signedJson : List UInt8 :=
  asBytes ("\x7b\"version\":\"2.0.0\",\"platform\":\"linux\",\"sha256\":\"0304\"," ++
    "\"file_name\":\"wardex-2.0.0-linux\",\"file_size\":2,\"mandatory\":false," ++
    "\"release_notes_sha256\":\"\",\"signed_at\":\"1970-01-01T00:00:00+00:00\"," ++
    "\"update_counter\":1\x7d")

def bundledKey : List UInt8 :=
  [234, 74, 108, 99, 226, 156, 82, 10, 190, 245, 80, 123, 19, 46, 197, 249, 149, 71, 118, 174, 190,
    190, 123, 146, 66, 30, 234, 105, 20, 70, 210, 44]

def zeroSignature : String := String.ofList (List.replicate 86 'A' ++ ['=', '='])

/-- Primitives under which 64 zero bytes are the bundled signer's only signature, one of
`signedPayload`. -/
def onePayload : Crypto (List UInt8) where
  sha256 := id
  encode _ := zeroSignature
  decode text :=
    if text = zeroSignature then .ok (List.replicate 64 0)
    else if text ∈ bundledTrustedUpdateSigners then .ok bundledKey
    else .error "Invalid input length"
  toVec p := if p = signedPayload then .ok signedJson else .error "not serialized"
  fromBytes := .ok
  verify key message sig :=
    key = bundledKey ∧ message = signedJson ∧ sig = List.replicate 64 0
  sign _ _ := List.replicate 64 0
  verifyingKey _ := bundledKey

def signedRelease : Release where
  version := "2.0.0"
  platform := "linux"
  sha256 := "0304"
  fileName := "wardex-2.0.0-linux"
  fileSize := 2
  releaseNotes := ""
  mandatory := false
  publishedAt := "1970-01-01T00:00:00+00:00"
  signature := some zeroSignature
  signerPubkey := bundledTrustedUpdateSigners.head?
  signedAt := some "1970-01-01T00:00:00+00:00"
  signaturePayloadSha256 := some (hexEncode signedJson)
  updateCounter := some 1

theorem onePayload_ideal : onePayload.Ideal where
  sha256_injective := Function.injective_id
  toVec_injective := by
    intro p q bytes hp hq
    simp only [onePayload] at hp hq
    split_ifs at hp hq with h h'
    exact h.trans h'.symm
  verify_unique := by
    intro key m m' sig h h'
    simp only [onePayload, decide_eq_true_eq] at h h'
    exact h.2.1.trans h'.2.1.symm

def graceRun : List Presented := [⟨signedRelease, [3, 4], 0⟩, ⟨unsignedRelease, [1, 2], 0⟩]

end Installation

end Wardex.Updates
