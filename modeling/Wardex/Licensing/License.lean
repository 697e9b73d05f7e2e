import Wardex.Audit.Log
import Wardex.Lib.Fallible
import Wardex.Lib.Text
import Mathlib.Algebra.Order.Ring.Int

/-! Signed license keys and the enforcer that holds the claims of one.  Base64, Ed25519, the JSON of
the claims and RFC 3339 are parameters; instants are nanoseconds. -/

namespace Wardex.Licensing

open Wardex.Lib Wardex.Audit

structure LicenseClaims where
  id : String
  tier : String
  org : String
  maxAgents : Nat
  maxUsers : Nat
  features : List String
  issuedAt : String
  expiresAt : String
deriving DecidableEq

structure LicenseStatus where
  valid : Bool
  tier : String
  org : String
  expiresAt : String
  daysRemaining : Int
  inGracePeriod : Bool
  maxAgents : Nat
  maxUsers : Nat
  features : List String

structure Codec (PublicKey : Type) where
  decode : List Char → Except String (List UInt8)
  publicKeyFromBytes : List UInt8 → Except String PublicKey
  verify : PublicKey → List Char → List UInt8 → Bool
  claimsFromSlice : List UInt8 → Except String LicenseClaims
  parseFromRfc3339 : String → Except String Int

variable {PublicKey : Type} (codec : Codec PublicKey)

/-- The steps that `validate_license` and `load` share. -/
def verifiedClaims (formatError : String) (key : String) (publicKey : List UInt8) :
    Except String LicenseClaims := do
  let (payload, sig) ← okOr (splitOnce '.' key.toList) formatError
  ensure (publicKey.length = 32) "public key must be 32 bytes"
  let verifyingKey ← (codec.publicKeyFromBytes publicKey).mapError ("invalid public key: " ++ ·)
  let sigBytes ← (codec.decode sig).mapError ("decode signature: " ++ ·)
  ensure (sigBytes.length = 64) "signature must be 64 bytes"
  ensure (codec.verify verifyingKey payload sigBytes = true) "invalid license signature"
  let payloadBytes ← (codec.decode payload).mapError ("decode payload: " ++ ·)
  (codec.claimsFromSlice payloadBytes).mapError ("parse claims: " ++ ·)

def validateLicense (key : String) (publicKey : List UInt8) (now : Int) :
    Except String LicenseClaims := do
  let claims ← verifiedClaims codec "invalid license format: expected payload.signature" key
    publicKey
  let expires ← (codec.parseFromRfc3339 claims.expiresAt).mapError ("parse expires_at: " ++ ·)
  ensure (now ≤ expires) ("license expired on " ++ claims.expiresAt)
  return claims

/-- The two callers differ in the text for a key without a dot only. -/
theorem verifiedClaims_ok_iff (e e' : String) {key : String} {publicKey : List UInt8}
    {claims : LicenseClaims} :
    verifiedClaims codec e key publicKey = .ok claims ↔
      verifiedClaims codec e' key publicKey = .ok claims := by
  unfold verifiedClaims
  cases splitOnce '.' key.toList with
  | none => exact iff_of_false nofun nofun
  | some parts => exact Iff.rfl

theorem verifiedClaims_length {e key : String} {publicKey : List UInt8} {claims : LicenseClaims}
    (h : verifiedClaims codec e key publicKey = .ok claims) : publicKey.length = 32 := by
  simp only [verifiedClaims, bind_eq_ok, ensure_eq_ok] at h
  obtain ⟨parts, _, _, hlength, _⟩ := h
  exact hlength

/-! ### Whole days -/

def secsPerDay : Int := 86400

def nanosPerDay : Int := 86400000000000

/-- Whole seconds of a duration, without the fraction: toward zero. -/
def numSeconds (diff : Int) : Int := diff.tdiv 1000000000

def numDays (diff : Int) : Int := (numSeconds diff).tdiv secsPerDay

theorem numDays_of_nonneg {diff : Int} (h : 0 ≤ diff) : numDays diff = diff / nanosPerDay := by
  have hseconds : 0 ≤ diff / 1000000000 := by omega
  rw [numDays, numSeconds, Int.tdiv_eq_ediv_of_nonneg h, Int.tdiv_eq_ediv_of_nonneg hseconds,
    Int.ediv_ediv_of_nonneg (by decide)]
  rfl

theorem numDays_neg (diff : Int) : numDays (-diff) = -numDays diff := by
  rw [numDays, numSeconds, Int.neg_tdiv, Int.neg_tdiv, numDays, numSeconds]

/-- The count is negative only once a whole day has gone by. -/
theorem numDays_neg_iff {diff : Int} : numDays diff < 0 ↔ diff ≤ -nanosPerDay := by
  unfold nanosPerDay
  rcases le_total 0 diff with h | h
  · rw [numDays_of_nonneg h, nanosPerDay]
    omega
  · have hneg := numDays_of_nonneg (neg_nonneg.mpr h)
    rw [numDays_neg, nanosPerDay] at hneg
    omega

theorem natAbs_numDays_le_iff {diff : Int} {g : Nat} (h : diff ≤ 0) :
    (numDays diff).natAbs ≤ g ↔ -diff < (g + 1) * nanosPerDay := by
  have hneg := numDays_of_nonneg (neg_nonneg.mpr h)
  rw [numDays_neg] at hneg
  unfold nanosPerDay at *
  omega

/-! ### The enforcer -/

structure LicenseEnforcer where
  claims : Option LicenseClaims
  publicKey : List UInt8
  gracePeriodDays : Nat
deriving DecidableEq

namespace LicenseEnforcer

def new (publicKey : List UInt8) : LicenseEnforcer where
  claims := none
  publicKey := publicKey
  gracePeriodDays := 14

def withGracePeriod (enforcer : LicenseEnforcer) (days : Nat) : LicenseEnforcer :=
  { enforcer with gracePeriodDays := days }

/-- An error leaves the enforcer as it was. -/
def load (enforcer : LicenseEnforcer) (key : String) : Except String LicenseEnforcer := do
  let claims ← verifiedClaims codec "invalid license format" key enforcer.publicKey
  return { enforcer with claims := some claims }

def daysRemaining (enforcer : LicenseEnforcer) (now : Int) : Option Int := do
  let claims ← enforcer.claims
  let expires ← (codec.parseFromRfc3339 claims.expiresAt).toOption
  return numDays (expires - now)

def inGracePeriod (enforcer : LicenseEnforcer) (now : Int) : Bool :=
  match enforcer.daysRemaining codec now with
  | some days => days < 0 && days.natAbs ≤ enforcer.gracePeriodDays
  | none => false

def isValid (enforcer : LicenseEnforcer) (now : Int) : Bool :=
  match enforcer.daysRemaining codec now with
  | some days => if days ≥ 0 then true else enforcer.inGracePeriod codec now
  | none => enforcer.inGracePeriod codec now

def isFeatureAllowed (enforcer : LicenseEnforcer) (feature : String) (now : Int) : Bool :=
  if !enforcer.isValid codec now then false
  else
    match enforcer.claims with
    | some c => c.features.any (· == feature)
    | none => false

def checkAgentLimit (enforcer : LicenseEnforcer) (current : Nat) (now : Int) : Bool :=
  match enforcer.claims with
  | some c => if enforcer.isValid codec now then current ≤ c.maxAgents else false
  | none => false

def checkUserLimit (enforcer : LicenseEnforcer) (current : Nat) (now : Int) : Bool :=
  match enforcer.claims with
  | some c => if enforcer.isValid codec now then current ≤ c.maxUsers else false
  | none => false

def status (enforcer : LicenseEnforcer) (now : Int) : LicenseStatus :=
  match enforcer.claims with
  | some c =>
    { valid := enforcer.isValid codec now
      tier := c.tier
      org := c.org
      expiresAt := c.expiresAt
      daysRemaining := (enforcer.daysRemaining codec now).getD 0
      inGracePeriod := enforcer.inGracePeriod codec now
      maxAgents := c.maxAgents
      maxUsers := c.maxUsers
      features := c.features }
  | none =>
    { valid := false
      tier := "none"
      org := ""
      expiresAt := ""
      daysRemaining := 0
      inGracePeriod := false
      maxAgents := 0
      maxUsers := 0
      features := [] }

/-- The enforcer holds a license that expires at the instant `expires`. -/
def ExpiresAt (enforcer : LicenseEnforcer) (expires : Int) : Prop :=
  ∃ claims, enforcer.claims = some claims ∧
    codec.parseFromRfc3339 claims.expiresAt = .ok expires

variable {codec} {enforcer loaded : LicenseEnforcer} {key : String} {expires now : Int}

theorem load_eq_ok_iff : enforcer.load codec key = .ok loaded ↔
    ∃ claims, verifiedClaims codec "invalid license format" key enforcer.publicKey = .ok claims ∧
      { enforcer with claims := some claims } = loaded := by
  simp only [load, bind_eq_ok, pure_eq_ok]

theorem daysRemaining_eq (h : enforcer.ExpiresAt codec expires) :
    enforcer.daysRemaining codec now = some (numDays (expires - now)) := by
  obtain ⟨claims, hclaims, hparse⟩ := h
  have hexpires : (codec.parseFromRfc3339 claims.expiresAt).toOption = some expires :=
    congrArg Except.toOption hparse
  simp only [daysRemaining, hclaims, Option.bind_eq_bind, Option.bind_some, hexpires]
  rfl

/-- The grace period starts a whole day after the license expired and lasts until a day after the
last day of grace. -/
theorem inGracePeriod_iff (h : enforcer.ExpiresAt codec expires) :
    enforcer.inGracePeriod codec now = true ↔ expires + nanosPerDay ≤ now ∧
      now < expires + (enforcer.gracePeriodDays + 1) * nanosPerDay := by
  have hpos : 0 < nanosPerDay := by decide
  simp only [inGracePeriod, daysRemaining_eq h, Bool.and_eq_true, decide_eq_true_eq]
  rw [numDays_neg_iff]
  constructor
  · rintro ⟨hneg, hdays⟩
    have hlast := (natAbs_numDays_le_iff (by omega)).mp hdays
    exact ⟨by omega, by omega⟩
  · rintro ⟨hfirst, hlast⟩
    exact ⟨by omega, (natAbs_numDays_le_iff (by omega)).mpr (by omega)⟩

theorem isValid_iff (h : enforcer.ExpiresAt codec expires) :
    enforcer.isValid codec now = true ↔
      now < expires + (enforcer.gracePeriodDays + 1) * nanosPerDay := by
  have hpos : 0 < nanosPerDay := by decide
  have hgrace : 0 ≤ (enforcer.gracePeriodDays : Int) * nanosPerDay :=
    mul_nonneg (Int.natCast_nonneg _) hpos.le
  simp only [isValid, daysRemaining_eq h]
  rw [add_one_mul]
  split_ifs with hdays
  · have hneg := mt numDays_neg_iff.mpr (not_lt.mpr hdays)
    exact iff_of_true rfl (by omega)
  · rw [inGracePeriod_iff h, add_one_mul]
    have hneg := numDays_neg_iff.mp (not_le.mp hdays)
    exact and_iff_right (by omega)

/-- A license that is no longer valid does not become valid again. -/
theorem isValid_of_le {later : Int} (h : enforcer.ExpiresAt codec expires) (hle : now ≤ later)
    (hvalid : enforcer.isValid codec later = true) : enforcer.isValid codec now = true :=
  (isValid_iff h).mpr (hle.trans_lt ((isValid_iff h).mp hvalid))

theorem validateLicense_ok_iff (hload : enforcer.load codec key = .ok loaded)
    (h : loaded.ExpiresAt codec expires) :
    (∃ claims, validateLicense codec key enforcer.publicKey now = .ok claims) ↔ now ≤ expires := by
  obtain ⟨claims, hverified, rfl⟩ := load_eq_ok_iff.mp hload
  obtain ⟨held, hheld, hparse⟩ := h
  obtain rfl : claims = held := Option.some.inj hheld
  have hsame := (verifiedClaims_ok_iff codec _
    "invalid license format: expected payload.signature").mp hverified
  simp only [validateLicense, bind_eq_ok, mapError_eq_ok, ensure_eq_ok, pure_eq_ok]
  constructor
  · rintro ⟨result, claims', hclaims', expires', hexpires', _, hle, _⟩
    obtain rfl : claims = claims' := Except.ok.inj (hsame.symm.trans hclaims')
    obtain rfl : expires = expires' := Except.ok.inj (hparse.symm.trans hexpires')
    exact hle
  · intro hle
    exact ⟨claims, claims, hsame, expires, hparse, (), hle, rfl⟩

/-- Without a valid license every check fails. -/
theorem denied_of_not_isValid (h : enforcer.isValid codec now = false) :
    (∀ feature, enforcer.isFeatureAllowed codec feature now = false) ∧
      (∀ current, enforcer.checkAgentLimit codec current now = false) ∧
      ∀ current, enforcer.checkUserLimit codec current now = false := by
  refine ⟨fun feature => ?_, fun current => ?_, fun current => ?_⟩
  · simp [isFeatureAllowed, h]
  · unfold checkAgentLimit
    cases enforcer.claims <;> simp [h]
  · unfold checkUserLimit
    cases enforcer.claims <;> simp [h]

end LicenseEnforcer

/-! ### The windows of a license -/

/-- What every call answers at the instant `now` for a key that was loaded and expires at
`expires`. -/
structure WindowsExact (codec : Codec PublicKey) (loaded : LicenseEnforcer) (key : String)
    (expires now : Int) : Prop where
  validated : (∃ claims, validateLicense codec key loaded.publicKey now = .ok claims) ↔
    now ≤ expires
  grace : loaded.inGracePeriod codec now = true ↔
    expires < now ∧ now ≤ expires + loaded.gracePeriodDays * nanosPerDay
  valid : loaded.isValid codec now = true ↔
    now ≤ expires + loaded.gracePeriodDays * nanosPerDay
  denied : expires + loaded.gracePeriodDays * nanosPerDay < now →
    (∀ feature, loaded.isFeatureAllowed codec feature now = false) ∧
      (∀ current, loaded.checkAgentLimit codec current now = false) ∧
      ∀ current, loaded.checkUserLimit codec current now = false

/-- The instants in whole days past which the truncation of the day count does not show. -/
def WholeDays (expires now : Int) (g : Nat) : Prop :=
  now ≤ expires ∨
    (expires + nanosPerDay ≤ now ∧ now ≤ expires + g * nanosPerDay) ∨
    expires + (g + 1) * nanosPerDay ≤ now

/-! ### A license that expired with the year 1969 -/

def payloadNames : String := "eyJpZCI6ImV4cGlyZWQtMDAxIiwidGllciI6ImVudGVycHJpc2UiLCJvcmciOi"

def payloadLimits : String := "JPbGQgQ28iLCJtYXhfYWdlbnRzIjoxMCwibWF4X3VzZXJzIjo1LCJmZWF0dXJl"

def payloadIssued : String := "cyI6WyJzc28iXSwiaXNzdWVkX2F0IjoiMTk2OS0xMi0wMlQwMDowMDowMCswMD"

def payloadExpires : String := "owMCIsImV4cGlyZXNfYXQiOiIxOTcwLTAxLTAxVDAwOjAwOjAwKzAwOjAwIn0="

def expiredPayload : String :=
  payloadNames ++ payloadLimits ++ payloadIssued ++ payloadExpires

def expiredSignature : String :=
  "pm+55C0Tn9luInvV4iTrY5cXqGqFeAwL1VDFOI0oDGgSkM1v8GrkXNI4tCy2mJ+CQ6EuNbAHJJPjfcJw8//vDw=="

def expiredKey : String := expiredPayload ++ "." ++ expiredSignature

def expiredJson : String :=
  "\x7b\"id\":\"expired-001\",\"tier\":\"enterprise\",\"org\":\"Old Co\",\"max_agents\":10," ++
    "\"max_users\":5,\"features\":[\"sso\"],\"issued_at\":\"1969-12-02T00:00:00+00:00\"," ++
    "\"expires_at\":\"1970-01-01T00:00:00+00:00\"\x7d"

def expiredClaims : LicenseClaims where
  id := "expired-001"
  tier := "enterprise"
  org := "Old Co"
  maxAgents := 10
  maxUsers := 5
  features := ["sso"]
  issuedAt := "1969-12-02T00:00:00+00:00"
  expiresAt := "1970-01-01T00:00:00+00:00"

def signerKey : List UInt8 :=
  [3, 161, 7, 191, 243, 206, 16, 190, 29, 112, 221, 24, 231, 75, 192, 153, 103, 228, 214, 48, 155,
    165, 13, 95, 29, 220, 134, 100, 18, 85, 49, 184]

def expiredSignatureBytes : List UInt8 :=
  [166, 111, 185, 228, 45, 19, 159, 217, 110, 34, 123, 213, 226, 36, 235, 99, 151, 23, 168, 106,
    133, 120, 12, 11, 213, 80, 197, 56, 141, 40, 12, 104, 18, 144, 205, 111, 240, 106, 228, 92, 210,
    56, 180, 44, 182, 152, 159, 130, 67, 161, 46, 53, 176, 7, 36, 147, 227, 125, 194, 112, 243, 255,
    239, 15]

/-- What decoding, the check of the signature and parsing give for this key. -/
def expiredCodec : Codec (List UInt8) where
  decode text :=
    .ok (if text = expiredSignature.toList then expiredSignatureBytes else asBytes expiredJson)
  publicKeyFromBytes := .ok
  verify _ _ sigBytes := sigBytes == expiredSignatureBytes
  claimsFromSlice _ := .ok expiredClaims
  parseFromRfc3339 _ := .ok 0

def emptyEnforcer : LicenseEnforcer := .new signerKey

def expiredEnforcer : LicenseEnforcer := { emptyEnforcer with claims := some expiredClaims }

theorem splitOnce_expiredKey :
    splitOnce '.' expiredKey.toList = some (expiredPayload.toList, expiredSignature.toList) := by
  have hnames : '.' ∉ payloadNames.toList := by decide +kernel
  have hlimits : '.' ∉ payloadLimits.toList := by decide +kernel
  have hissued : '.' ∉ payloadIssued.toList := by decide +kernel
  have hexpires : '.' ∉ payloadExpires.toList := by decide +kernel
  have hpayload : '.' ∉ expiredPayload.toList := by
    simp only [expiredPayload, String.toList_append, List.mem_append, not_or]
    exact ⟨⟨⟨hnames, hlimits⟩, hissued⟩, hexpires⟩
  have hkey : expiredKey.toList = expiredPayload.toList ++ ['.'] ++ expiredSignature.toList := by
    rw [expiredKey, String.toList_append, String.toList_append]
    rfl
  rw [hkey, List.append_assoc, List.singleton_append, splitOnce_append hpayload]

theorem decode_expiredPayload :
    expiredCodec.decode expiredPayload.toList = .ok (asBytes expiredJson) := by
  have hne : expiredPayload ≠ expiredSignature := by decide +kernel
  exact congrArg Except.ok (if_neg fun h => hne (String.toList_inj.mp h))

theorem load_expiredKey : emptyEnforcer.load expiredCodec expiredKey = .ok expiredEnforcer := by
  refine LicenseEnforcer.load_eq_ok_iff.mpr ⟨expiredClaims, ?_, rfl⟩
  rw [verifiedClaims, splitOnce_expiredKey]
  simp only [bind_eq_ok, mapError_eq_ok, ensure_eq_ok]
  have hsignature : expiredCodec.decode expiredSignature.toList = .ok expiredSignatureBytes :=
    congrArg Except.ok (if_pos rfl)
  have hverify : expiredCodec.verify signerKey expiredPayload.toList expiredSignatureBytes = true :=
    beq_self_eq_true expiredSignatureBytes
  refine ⟨_, rfl, ?_⟩
  dsimp only
  exact ⟨(), rfl, signerKey, rfl, expiredSignatureBytes, hsignature, (), rfl, (), hverify,
    asBytes expiredJson, decode_expiredPayload, rfl⟩

theorem expiresAt_expiredEnforcer : expiredEnforcer.ExpiresAt expiredCodec 0 :=
  ⟨expiredClaims, rfl, rfl⟩

section

variable {codec} {enforcer loaded : LicenseEnforcer} {key : String} {expires now : Int}

theorem license_windows_exact_iff (hload : enforcer.load codec key = .ok loaded)
    (h : loaded.ExpiresAt codec expires) :
    WindowsExact codec loaded key expires now ↔
      WholeDays expires now loaded.gracePeriodDays := by
  have hpos : 0 < nanosPerDay := by decide
  have hgrace : 0 ≤ (loaded.gracePeriodDays : Int) * nanosPerDay :=
    mul_nonneg (Int.natCast_nonneg _) hpos.le
  have hvalid : loaded.isValid codec now = true ↔
      now < expires + (loaded.gracePeriodDays + 1) * nanosPerDay := LicenseEnforcer.isValid_iff h
  have hin : loaded.inGracePeriod codec now = true ↔ expires + nanosPerDay ≤ now ∧
      now < expires + (loaded.gracePeriodDays + 1) * nanosPerDay :=
    LicenseEnforcer.inGracePeriod_iff h
  have hkey : loaded.publicKey = enforcer.publicKey := by
    obtain ⟨claims, _, rfl⟩ := LicenseEnforcer.load_eq_ok_iff.mp hload
    rfl
  have hvalidate : (∃ claims, validateLicense codec key loaded.publicKey now = .ok claims) ↔
      now ≤ expires := hkey ▸ LicenseEnforcer.validateLicense_ok_iff hload h
  rw [add_one_mul] at hvalid hin
  unfold WholeDays
  rw [add_one_mul]
  constructor
  · rintro ⟨-, hexactGrace, hexactValid, -⟩
    rw [hin] at hexactGrace
    rw [hvalid] at hexactValid
    omega
  · intro hwhole
    refine ⟨hvalidate, hin.trans ?_, hvalid.trans ?_, fun hlate => ?_⟩
    · omega
    · omega
    · exact LicenseEnforcer.denied_of_not_isValid
        (Bool.eq_false_iff.mpr (mt hvalid.mp (by omega)))

end

/-- In the middle of a day of grace nothing shows. -/
theorem license_windows_exact_second_day :
    WindowsExact expiredCodec expiredEnforcer expiredKey 0 (nanosPerDay + nanosPerDay / 2) ↔
      WholeDays 0 (nanosPerDay + nanosPerDay / 2) 14 :=
  license_windows_exact_iff load_expiredKey expiresAt_expiredEnforcer

/-- Half a day after it expired the license is not in its grace period, and half a day after the
last day of grace it is still valid. -/
theorem license_windows_inexact :
    emptyEnforcer.load expiredCodec expiredKey = .ok expiredEnforcer ∧
      expiredEnforcer.ExpiresAt expiredCodec 0 ∧
      ¬ WindowsExact expiredCodec expiredEnforcer expiredKey 0 (nanosPerDay / 2) ∧
      ¬ WindowsExact expiredCodec expiredEnforcer expiredKey 0
        (14 * nanosPerDay + nanosPerDay / 2) := by
  refine ⟨load_expiredKey, expiresAt_expiredEnforcer, fun h => ?_, fun h => ?_⟩
  · exact absurd (h.grace.mpr (by decide)) (by decide)
  · exact absurd (h.valid.mp (by decide)) (by decide)

end Wardex.Licensing
