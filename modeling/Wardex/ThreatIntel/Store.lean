import Mathlib.Algebra.Order.Field.Rat
import Mathlib.Data.List.Infix
import Mathlib.Tactic.NormNum
import Wardex.Enrollment.Registry
import Wardex.Lib.HashTable
import Wardex.Lib.Text

/-! Indicators of compromise and the store that holds them.  Confidences and weights are exact
rationals, instants are nanoseconds, and the calendar is a parameter. -/

namespace Wardex.ThreatIntel

open Wardex.Lib Wardex.Enrollment

inductive IoCType where
  | ipAddress
  | domain
  | fileHash
  | processName
  | behaviorPattern
  | networkSignature
  | registryKey
  | certificate
deriving DecidableEq

/-- The name that `{:?}` writes. -/
def IoCType.debug : IoCType → String
  | ipAddress => "IpAddress"
  | domain => "Domain"
  | fileHash => "FileHash"
  | processName => "ProcessName"
  | behaviorPattern => "BehaviorPattern"
  | networkSignature => "NetworkSignature"
  | registryKey => "RegistryKey"
  | certificate => "Certificate"

structure IndicatorMetadata where
  normalizedValue : String
  ttlDays : ℕ
  sourceWeight : ℚ
  confidenceDecay : ℚ
  lastSighting : Option String
  sightings : ℕ
deriving DecidableEq

def IndicatorMetadata.default : IndicatorMetadata where
  normalizedValue := ""
  ttlDays := 90
  sourceWeight := 1
  confidenceDecay := 98 / 100
  lastSighting := none
  sightings := 0

structure IndicatorSighting where
  timestamp : String
  source : String
  context : String
  weight : ℚ
deriving DecidableEq

structure IoC where
  iocType : IoCType
  value : String
  confidence : ℚ
  severity : String
  source : String
  firstSeen : String
  lastSeen : String
  tags : List String
  relatedIocs : List String
  metadata : IndicatorMetadata
  sightings : List IndicatorSighting
deriving DecidableEq

def normalizeIocValue (iocType : IoCType) (value : String) : String :=
  let trimmed := trimText value
  match iocType with
  | .ipAddress => trimmed
  | _ => toAsciiLowercase trimmed

def containsText (text part : String) : Bool := part.toList <:+: text.toList

def defaultSourceWeight (source : String) : ℚ :=
  let normalized := toAsciiLowercase (trimText source)
  if containsText normalized "internal" || containsText normalized "misp" then 12 / 10
  else if containsText normalized "community" || containsText normalized "public" then 9 / 10
  else 1

/-- What `hydrate_ioc_metadata` makes of the metadata. -/
def hydratedMetadata (ioc : IoC) : IndicatorMetadata where
  normalizedValue :=
    if ioc.metadata.normalizedValue = "" then normalizeIocValue ioc.iocType ioc.value
    else ioc.metadata.normalizedValue
  ttlDays := if ioc.metadata.ttlDays = 0 then 90 else ioc.metadata.ttlDays
  sourceWeight :=
    if ioc.metadata.sourceWeight ≤ 0 then defaultSourceWeight ioc.source
    else ioc.metadata.sourceWeight
  confidenceDecay :=
    if ioc.metadata.confidenceDecay ≤ 0 then 98 / 100 else ioc.metadata.confidenceDecay
  lastSighting := ioc.metadata.lastSighting
  sightings :=
    if ioc.metadata.sightings = 0 ∧ ioc.sightings ≠ [] then ioc.sightings.length
    else ioc.metadata.sightings

def hydrateIocMetadata (ioc : IoC) : IoC := { ioc with metadata := hydratedMetadata ioc }

/-- The key under which an indicator is stored. -/
def iocKey (ioc : IoC) : String :=
  ioc.iocType.debug ++ ":" ++ normalizeIocValue ioc.iocType ioc.value

theorem defaultSourceWeight_pos (source : String) : 0 < defaultSourceWeight source := by
  unfold defaultSourceWeight
  dsimp only
  split_ifs <;> norm_num

@[simp] theorem hydrateIocMetadata_hydrateIocMetadata (ioc : IoC) :
    hydrateIocMetadata (hydrateIocMetadata ioc) = hydrateIocMetadata ioc := by
  have hweight := defaultSourceWeight_pos ioc.source
  have hmetadata : hydratedMetadata (hydrateIocMetadata ioc) = hydratedMetadata ioc := by
    unfold hydrateIocMetadata hydratedMetadata
    simp only [IndicatorMetadata.mk.injEq, true_and]
    refine ⟨?_, ?_, ?_, ?_, ?_⟩
    · split_ifs <;> simp_all
    · split_ifs <;> simp_all
    · split_ifs with hsource hdefault
      · exact absurd hdefault (not_le.mpr hweight)
      · rfl
      · rfl
    · split_ifs with hdecay hdefault
      · exact absurd hdefault (by norm_num)
      · rfl
      · rfl
    · split_ifs <;> simp_all
  exact congrArg (fun metadata => { ioc with metadata := metadata }) hmetadata

theorem hydrateIocMetadata_withConfidence (ioc : IoC) (c : ℚ) :
    hydrateIocMetadata { ioc with confidence := c } =
      { hydrateIocMetadata ioc with confidence := c } := rfl

/-- What `purge_expired` retains. -/
def seenSince (chrono : Chrono) (cutoff : Int) (ioc : IoC) : Bool :=
  match chrono.parse ioc.lastSeen with
  | some ts => cutoff ≤ ts
  | none => true

structure ThreatIntelStore where
  iocs : HashTable String IoC

namespace ThreatIntelStore

def new : ThreatIntelStore := ⟨∅⟩

def addIoc (store : ThreatIntelStore) (ioc : IoC) : ThreatIntelStore :=
  let ioc := hydrateIocMetadata ioc
  ⟨store.iocs.insert (iocKey ioc) ioc⟩

def iocCount (store : ThreatIntelStore) : ℕ := store.iocs.values.length

def allIocs (order : HashTable.IterationOrder String IoC) (store : ThreatIntelStore) : List IoC :=
  (order.arrange store.iocs).values

/-- With the number of the indicators removed, or `none` if the cutoff is out of range and
panics. -/
def purgeExpired (chrono : Chrono) (store : ThreatIntelStore) (now : String) (ttlDays : ℕ) :
    Option (ThreatIntelStore × ℕ) :=
  match chrono.parse now with
  | none => some (store, 0)
  | some nowTs =>
    (chrono.addSeconds nowTs (-(toI64 ttlDays * 86400))).map fun cutoff =>
      let kept : ThreatIntelStore := ⟨store.iocs.retain (seenSince chrono cutoff)⟩
      (kept, store.iocCount - kept.iocCount)

/-! ### What is stored, and where -/

/-- Every indicator is stored under its own key, with its metadata filled in. -/
structure Keyed (store : ThreatIntelStore) : Prop where
  key : store.iocs.KeyedBy iocKey
  hydrated : ∀ k ioc, store.iocs.lookup k = some ioc → hydrateIocMetadata ioc = ioc

theorem keyed_new : Keyed new where
  key k ioc h := by cases h
  hydrated k ioc h := by cases h

theorem Keyed.addIoc {store : ThreatIntelStore} (h : Keyed store) (ioc : IoC) :
    Keyed (store.addIoc ioc) := by
  have hcases : ∀ k stored, (store.addIoc ioc).iocs.lookup k = some stored →
      (k = iocKey ioc ∧ stored = hydrateIocMetadata ioc) ∨ store.iocs.lookup k = some stored := by
    intro k stored hk
    by_cases hkey : k = iocKey ioc
    · subst hkey
      exact .inl ⟨rfl, (Option.some.inj ((AList.lookup_insert store.iocs).symm.trans hk)).symm⟩
    · exact .inr ((AList.lookup_insert_ne hkey).symm.trans hk)
  constructor
  · intro k stored hk
    obtain ⟨rfl, rfl⟩ | hold := hcases k stored hk
    · rfl
    · exact h.key k stored hold
  · intro k stored hk
    obtain ⟨rfl, rfl⟩ | hold := hcases k stored hk
    · exact hydrateIocMetadata_hydrateIocMetadata ioc
    · exact h.hydrated k stored hold

/-- A store that was filled through `add_ioc`. -/
def filledWith (iocs : List IoC) : ThreatIntelStore := iocs.foldl addIoc new

theorem keyed_filledWith (iocs : List IoC) : Keyed (filledWith iocs) := by
  have hfill : ∀ store, Keyed store → Keyed (iocs.foldl ThreatIntelStore.addIoc store) := by
    induction iocs with
    | nil => exact fun store h => h
    | cons ioc iocs ih => exact fun store h => ih (store.addIoc ioc) (h.addIoc ioc)
  exact hfill new keyed_new

end ThreatIntelStore

end Wardex.ThreatIntel
