import Mathlib.Data.List.Dedup
import Wardex.Audit.Chain
import Wardex.Audit.Log
import Wardex.Lib.Fallible
import Wardex.Lib.HashTable
import Wardex.Lib.KeyMap
import Wardex.Lib.Run

/-! The tenants of one installation: their keys, their devices and what they use; and who owns a
device, over every sequence of calls.  A device is registered without looking at the tenants that
have it already.  SHA-256 and the clock are parameters. -/

namespace Wardex.Tenants

open Wardex.Lib Wardex.Audit

inductive TenantTier where
  | free
  | standard
  | enterprise
  | government
deriving DecidableEq

structure ResourceQuota where
  maxDevices : Nat
  maxEventsPerSec : UInt64
  maxStorageMb : UInt64
  maxPolicies : Nat
  retentionDays : UInt32
deriving DecidableEq

def ResourceQuota.forTier : TenantTier → ResourceQuota
  | .free => ⟨5, 10, 100, 3, 7⟩
  | .standard => ⟨50, 100, 5000, 20, 30⟩
  | .enterprise => ⟨500, 1000, 100000, 100, 365⟩
  | .government => ⟨1000, 5000, 500000, 500, 2555⟩

structure Tenant where
  id : String
  name : String
  tier : TenantTier
  createdAt : String
  active : Bool
  resourceQuota : ResourceQuota
  deviceIds : List String
  apiKeyHash : String
deriving DecidableEq

structure TenantContext where
  tenantId : String
  tier : TenantTier
  quota : ResourceQuota
deriving DecidableEq

structure TenantUsage where
  devices : Nat
  eventsProcessed : UInt64
  storageUsedMb : UInt64
  policiesActive : Nat
deriving DecidableEq

def Tenant.context (t : Tenant) : TenantContext := ⟨t.id, t.tier, t.resourceQuota⟩

def TenantContext.checkDeviceLimit (ctx : TenantContext) (current : Nat) : Except String Unit :=
  if current ≥ ctx.quota.maxDevices then
    .error ("tenant " ++ ctx.tenantId ++ " exceeded device limit (" ++
      toString ctx.quota.maxDevices ++ ")")
  else .ok ()

structure MultiTenantManager where
  tenants : HashTable String Tenant
  usage : HashTable String TenantUsage

namespace MultiTenantManager

def new : MultiTenantManager := ⟨∅, ∅⟩

section

variable (sha256 : List UInt8 → List UInt8)

/-- The first 16 characters of a digest of the name and of how many tenants there are. -/
def tenantId (mgr : MultiTenantManager) (name : String) : String :=
  let digest := sha256Hex sha256
    (asBytes ("tenant:" ++ name ++ ":" ++ toString mgr.tenants.keys.length))
  String.ofList (digest.toList.take 16)

def createTenant (mgr : MultiTenantManager) (name : String) (tier : TenantTier)
    (apiKey now : String) : MultiTenantManager × String :=
  let id := mgr.tenantId sha256 name
  let tenant : Tenant :=
    { id
      name
      tier
      createdAt := now
      active := true
      resourceQuota := .forTier tier
      deviceIds := []
      apiKeyHash := sha256Hex sha256 (asBytes apiKey) }
  ({ tenants := mgr.tenants.insert id tenant
     usage := mgr.usage.insert id ⟨0, 0, 0, 0⟩ }, id)

/-- The first tenant met that has the digest and is active. -/
def authenticate (mgr : MultiTenantManager) (apiKey : String) : Option TenantContext :=
  let hash := sha256Hex sha256 (asBytes apiKey)
  (mgr.tenants.values.find? fun t => t.apiKeyHash == hash && t.active).map Tenant.context

end

def registerDevice (mgr : MultiTenantManager) (tenantId deviceId : String) :
    Except String MultiTenantManager := do
  let tenant ← okOr (mgr.tenants.lookup tenantId) "tenant not found"
  let usage ← okOr (mgr.usage.lookup tenantId) "usage not found"
  tenant.context.checkDeviceLimit usage.devices
  return {
    tenants := mgr.tenants.modify tenantId fun t =>
      { t with deviceIds := t.deviceIds ++ [deviceId] }
    usage := mgr.usage.modify tenantId fun u => { u with devices := u.devices + 1 } }

def recordEvents (mgr : MultiTenantManager) (tenantId : String) (count : UInt64) :
    Except String MultiTenantManager := do
  let _ ← okOr (mgr.usage.lookup tenantId) "tenant not found"
  return { mgr with
    usage := mgr.usage.modify tenantId fun u =>
      { u with eventsProcessed := u.eventsProcessed + count } }

def deactivate (mgr : MultiTenantManager) (tenantId : String) : MultiTenantManager × Bool :=
  match mgr.tenants.lookup tenantId with
  | some _ =>
    ({ mgr with tenants := mgr.tenants.modify tenantId fun t => { t with active := false } }, true)
  | none => (mgr, false)

def updateTier (mgr : MultiTenantManager) (tenantId : String) (newTier : TenantTier) :
    Except String MultiTenantManager := do
  let _ ← okOr (mgr.tenants.lookup tenantId) "tenant not found"
  return { mgr with
    tenants := mgr.tenants.modify tenantId fun t =>
      { t with tier := newTier, resourceQuota := .forTier newTier } }

def deviceBelongsTo (mgr : MultiTenantManager) (tenantId deviceId : String) : Bool :=
  (mgr.tenants.lookup tenantId).any fun t => t.deviceIds.contains deviceId

/-- The first tenant met that has the device. -/
def tenantForDevice (mgr : MultiTenantManager) (deviceId : String) : Option Tenant :=
  mgr.tenants.values.find? fun t => t.deviceIds.contains deviceId

end MultiTenantManager

/-! ## Who owns a device -/

inductive Call where
  | createTenant (name : String) (tier : TenantTier) (apiKey now : String)
  | registerDevice (tenantId deviceId : String)
  | recordEvents (tenantId : String) (count : UInt64)
  | updateTier (tenantId : String) (newTier : TenantTier)
  | deactivate (tenantId : String)

/-- The manager, and the key that each tenant was created with. -/
structure Session where
  manager : MultiTenantManager
  apiKeys : KeyMap String String

/-- A call that fails leaves the manager as it is. -/
def orKeep (mgr : MultiTenantManager) (result : Except String MultiTenantManager) :
    MultiTenantManager :=
  result.toOption.getD mgr

namespace Session

def start : Session := ⟨.new, .empty⟩

section

variable (sha256 : List UInt8 → List UInt8)

def perform (s : Session) : Call → Session
  | .createTenant name tier apiKey now =>
    ⟨(s.manager.createTenant sha256 name tier apiKey now).1,
      s.apiKeys.insert (s.manager.tenantId sha256 name) apiKey⟩
  | .registerDevice tenantId deviceId =>
    ⟨orKeep s.manager (s.manager.registerDevice tenantId deviceId), s.apiKeys⟩
  | .recordEvents tenantId count =>
    ⟨orKeep s.manager (s.manager.recordEvents tenantId count), s.apiKeys⟩
  | .updateTier tenantId newTier =>
    ⟨orKeep s.manager (s.manager.updateTier tenantId newTier), s.apiKeys⟩
  | .deactivate tenantId => ⟨(s.manager.deactivate tenantId).1, s.apiKeys⟩

/-- The tenant that a call is about. -/
def subject (s : Session) : Call → String
  | .createTenant name _ _ _ => s.manager.tenantId sha256 name
  | .registerDevice tenantId _ => tenantId
  | .recordEvents tenantId _ => tenantId
  | .updateTier tenantId _ => tenantId
  | .deactivate tenantId => tenantId

/-- A tenant is created under an identifier and with a key that no tenant has. -/
def Distinct (s : Session) (call : Call) : Prop :=
  ∀ name tier apiKey now, call = .createTenant name tier apiKey now →
    s.manager.tenants.lookup (s.manager.tenantId sha256 name) = none ∧
      ∀ id, s.apiKeys id ≠ some apiKey

/-- A device that is registered is not one of any tenant yet. -/
def Unowned (s : Session) (call : Call) : Prop :=
  ∀ tenantId deviceId, call = .registerDevice tenantId deviceId →
    (s.manager.registerDevice tenantId deviceId).isOk →
    ∀ id t, s.manager.tenants.lookup id = some t → deviceId ∉ t.deviceIds

/-- What holds of a state of the manager. -/
structure Partitioned (s : Session) : Prop where
  exclusive : ∀ id id' t t', s.manager.tenants.lookup id = some t →
    s.manager.tenants.lookup id' = some t' → ∀ deviceId, deviceId ∈ t.deviceIds →
    deviceId ∈ t'.deviceIds → id = id'
  ordered : ∀ mgr : MultiTenantManager, s.manager.tenants.Reordered mgr.tenants → ∀ deviceId,
    mgr.tenantForDevice deviceId = s.manager.tenantForDevice deviceId
  counted : ∀ id t u, s.manager.tenants.lookup id = some t → s.manager.usage.lookup id = some u →
    u.devices = t.deviceIds.dedup.length
  authenticated : ∀ mgr : MultiTenantManager, s.manager.tenants.Reordered mgr.tenants →
    ∀ apiKey ctx, mgr.authenticate sha256 apiKey = some ctx ↔
      ∃ id t, s.apiKeys id = some apiKey ∧ s.manager.tenants.lookup id = some t ∧ t.active ∧
        ctx = ⟨id, t.tier, t.resourceQuota⟩

/-- What holds of a call: a device is registered within the quota, and no other tenant is
touched. -/
structure Contained (s : Session) (call : Call) : Prop where
  withinQuota : ∀ tenantId deviceId, call = .registerDevice tenantId deviceId →
    (s.manager.registerDevice tenantId deviceId).isOk →
    ∀ t, (s.perform sha256 call).manager.tenants.lookup tenantId = some t →
      t.deviceIds.length ≤ t.resourceQuota.maxDevices
  isolated : ∀ id, id ≠ s.subject sha256 call →
    (s.perform sha256 call).manager.tenants.lookup id = s.manager.tenants.lookup id ∧
      (s.perform sha256 call).manager.usage.lookup id = s.manager.usage.lookup id

/-- What all calls keep. -/
structure Consistent (s : Session) : Prop where
  named : ∀ id t, s.manager.tenants.lookup id = some t → t.id = id
  measured : ∀ id t, s.manager.tenants.lookup id = some t →
    ∃ u, s.manager.usage.lookup id = some u ∧ u.devices = t.deviceIds.length
  keyed : ∀ id, (s.manager.tenants.lookup id).map Tenant.apiKeyHash =
    (s.apiKeys id).map fun apiKey => sha256Hex sha256 (asBytes apiKey)
  distinct : ∀ id id' apiKey, s.apiKeys id = some apiKey → s.apiKeys id' = some apiKey → id = id'

end

/-- The tenant `tenantId` and its usage are changed, and nothing else. -/
structure Touches (s s' : Session) (tenantId : String) (f : Tenant → Tenant)
    (g : TenantUsage → TenantUsage) : Prop where
  tenants : ∀ id, s'.manager.tenants.lookup id =
    (s.manager.tenants.lookup id).map fun t => if id = tenantId then f t else t
  usage : ∀ id, s'.manager.usage.lookup id =
    (s.manager.usage.lookup id).map fun u => if id = tenantId then g u else u
  apiKeys : s'.apiKeys = s.apiKeys

/-- What identifies a tenant and its devices stay as they are. -/
structure Plain (f : Tenant → Tenant) (g : TenantUsage → TenantUsage) : Prop where
  ident : ∀ t, (f t).id = t.id
  apiKeyHash : ∀ t, (f t).apiKeyHash = t.apiKeyHash
  deviceIds : ∀ t, (f t).deviceIds = t.deviceIds
  devices : ∀ u, (g u).devices = u.devices

end Session

theorem lookup_modify_eq {κ α : Type*} [DecidableEq κ] (m : HashTable κ α) (k l : κ) (f : α → α) :
    (m.modify k f).lookup l = (m.lookup l).map fun v => if l = k then f v else v := by
  rcases eq_or_ne l k with rfl | hne
  · simp
  · simp [HashTable.lookup_modify_of_ne hne, hne]

theorem checkDeviceLimit_eq_ok {ctx : TenantContext} {current : Nat} {r : Unit} :
    ctx.checkDeviceLimit current = .ok r ↔ current < ctx.quota.maxDevices := by
  unfold TenantContext.checkDeviceLimit
  split_ifs with h
  · exact iff_of_false nofun (Nat.not_lt_of_le h)
  · exact iff_of_true rfl (Nat.lt_of_not_le h)

theorem registerDevice_eq_ok {mgr mgr' : MultiTenantManager} {tenantId deviceId : String} :
    mgr.registerDevice tenantId deviceId = .ok mgr' ↔
      ∃ t u, mgr.tenants.lookup tenantId = some t ∧ mgr.usage.lookup tenantId = some u ∧
        u.devices < t.resourceQuota.maxDevices ∧
        mgr' = ⟨mgr.tenants.modify tenantId fun t =>
            { t with deviceIds := t.deviceIds ++ [deviceId] },
          mgr.usage.modify tenantId fun u => { u with devices := u.devices + 1 }⟩ := by
  simp only [MultiTenantManager.registerDevice, bind_eq_ok, okOr_eq_ok, pure_eq_ok,
    checkDeviceLimit_eq_ok]
  constructor
  · rintro ⟨t, ht, u, hu, _, hroom, rfl⟩
    exact ⟨t, u, ht, hu, hroom, rfl⟩
  · rintro ⟨t, u, ht, hu, hroom, rfl⟩
    exact ⟨t, ht, u, hu, (), hroom, rfl⟩

namespace Session

variable {sha256 : List UInt8 → List UInt8} {s s' : Session} {call : Call}

/-- A tenant without devices is added, with a key of its own. -/
structure Creates (sha256 : List UInt8 → List UInt8) (s s' : Session) (created : Tenant)
    (apiKey : String) : Prop where
  newTenant : s.manager.tenants.lookup created.id = none
  newKey : ∀ id, s.apiKeys id ≠ some apiKey
  tenants : ∀ id, s'.manager.tenants.lookup id =
    if id = created.id then some created else s.manager.tenants.lookup id
  usage : ∀ id, s'.manager.usage.lookup id =
    if id = created.id then some ⟨0, 0, 0, 0⟩ else s.manager.usage.lookup id
  apiKeys : ∀ id, s'.apiKeys id = if id = created.id then some apiKey else s.apiKeys id
  deviceIds : created.deviceIds = []
  apiKeyHash : created.apiKeyHash = sha256Hex sha256 (asBytes apiKey)

theorem lookup_insert_eq {κ α : Type*} [DecidableEq κ] (m : HashTable κ α) (k l : κ) (v : α) :
    AList.lookup l (m.insert k v) = if l = k then some v else m.lookup l := by
  split_ifs with h
  · rw [h, AList.lookup_insert]
  · exact AList.lookup_insert_ne h

theorem creates_perform {name apiKey now : String} {tier : TenantTier}
    (h : s.Distinct sha256 (.createTenant name tier apiKey now)) :
    Creates sha256 s (s.perform sha256 (.createTenant name tier apiKey now))
      ⟨s.manager.tenantId sha256 name, name, tier, now, true, .forTier tier, [],
        sha256Hex sha256 (asBytes apiKey)⟩ apiKey where
  newTenant := (h name tier apiKey now rfl).1
  newKey := (h name tier apiKey now rfl).2
  tenants _ := lookup_insert_eq _ _ _ _
  usage _ := lookup_insert_eq _ _ _ _
  apiKeys id := by
    dsimp only [perform]
    exact s.apiKeys.insert_apply _ id apiKey
  deviceIds := rfl
  apiKeyHash := rfl

theorem touches_modify (s : Session) (tenantId : String) (f : Tenant → Tenant)
    (g : TenantUsage → TenantUsage) :
    Touches s ⟨⟨s.manager.tenants.modify tenantId f, s.manager.usage.modify tenantId g⟩, s.apiKeys⟩
      tenantId f g :=
  ⟨fun _ => lookup_modify_eq _ _ _ _, fun _ => lookup_modify_eq _ _ _ _, rfl⟩

theorem touches_refl (s : Session) (tenantId : String) : Touches s s tenantId id id :=
  ⟨fun _ => by simp, fun _ => by simp, rfl⟩

theorem plain_id : Plain id id := ⟨fun _ => rfl, fun _ => rfl, fun _ => rfl, fun _ => rfl⟩

/-- Every call creates a tenant, registers a device, or leaves all devices as they are. -/
theorem perform_cases (sha256 : List UInt8 → List UInt8) (s : Session) (call : Call) :
    (∃ name tier apiKey now, call = .createTenant name tier apiKey now) ∨
      (∃ tenantId deviceId t u, call = .registerDevice tenantId deviceId ∧
        (s.manager.registerDevice tenantId deviceId).isOk ∧
        s.manager.tenants.lookup tenantId = some t ∧ s.manager.usage.lookup tenantId = some u ∧
        u.devices < t.resourceQuota.maxDevices ∧
        Touches s (s.perform sha256 call) tenantId
          (fun t => { t with deviceIds := t.deviceIds ++ [deviceId] })
          (fun u => { u with devices := u.devices + 1 })) ∨
      (∀ tenantId deviceId, call = .registerDevice tenantId deviceId →
        ¬ (s.manager.registerDevice tenantId deviceId).isOk) ∧
        ∃ f g, Plain f g ∧ Touches s (s.perform sha256 call) (s.subject sha256 call) f g := by
  cases call with
  | createTenant name tier apiKey now => exact Or.inl ⟨name, tier, apiKey, now, rfl⟩
  | registerDevice tenantId deviceId =>
    refine Or.inr ?_
    cases hresult : s.manager.registerDevice tenantId deviceId with
    | error e =>
      refine Or.inr ⟨?_, id, id, plain_id, ?_⟩
      · rintro _ _ h
        obtain ⟨rfl, rfl⟩ := Call.registerDevice.inj h
        rw [hresult]
        exact Bool.false_ne_true
      · rw [perform, hresult]
        exact touches_refl s _
    | ok mgr =>
      obtain ⟨t, u, ht, hu, hroom, rfl⟩ := registerDevice_eq_ok.mp hresult
      refine Or.inl ⟨tenantId, deviceId, t, u, rfl, by rw [hresult]; rfl, ht, hu, hroom, ?_⟩
      rw [perform, hresult]
      exact touches_modify s _ _ _
  | recordEvents tenantId count =>
    refine Or.inr (Or.inr ⟨nofun, ?_⟩)
    rw [perform, MultiTenantManager.recordEvents]
    cases hu : s.manager.usage.lookup tenantId with
    | none => exact ⟨id, id, plain_id, touches_refl s _⟩
    | some u =>
      exact ⟨id, fun u => { u with eventsProcessed := u.eventsProcessed + count },
        ⟨fun _ => rfl, fun _ => rfl, fun _ => rfl, fun _ => rfl⟩, (touches_refl s tenantId).tenants,
        fun _ => lookup_modify_eq _ _ _ _, rfl⟩
  | updateTier tenantId newTier =>
    refine Or.inr (Or.inr ⟨nofun, ?_⟩)
    rw [perform, MultiTenantManager.updateTier]
    cases ht : s.manager.tenants.lookup tenantId with
    | none => exact ⟨id, id, plain_id, touches_refl s _⟩
    | some t =>
      exact ⟨fun t => { t with tier := newTier, resourceQuota := .forTier newTier }, id,
        ⟨fun _ => rfl, fun _ => rfl, fun _ => rfl, fun _ => rfl⟩,
        fun _ => lookup_modify_eq _ _ _ _, (touches_refl s tenantId).usage, rfl⟩
  | deactivate tenantId =>
    refine Or.inr (Or.inr ⟨nofun, ?_⟩)
    rw [perform, MultiTenantManager.deactivate]
    cases ht : s.manager.tenants.lookup tenantId with
    | none => exact ⟨id, id, plain_id, touches_refl s _⟩
    | some t =>
      exact ⟨fun t => { t with active := false }, id,
        ⟨fun _ => rfl, fun _ => rfl, fun _ => rfl, fun _ => rfl⟩,
        fun _ => lookup_modify_eq _ _ _ _, (touches_refl s tenantId).usage, rfl⟩

theorem consistent_start : start.Consistent sha256 where
  named _ _ h := by cases h
  measured _ _ h := by cases h
  keyed _ := rfl
  distinct _ _ _ h := by cases h

theorem Touches.frame {tenantId id : String} {f : Tenant → Tenant} {g : TenantUsage → TenantUsage}
    (h : Touches s s' tenantId f g) (hne : id ≠ tenantId) :
    s'.manager.tenants.lookup id = s.manager.tenants.lookup id ∧
      s'.manager.usage.lookup id = s.manager.usage.lookup id := by
  constructor
  · rw [h.tenants]
    simp [hne]
  · rw [h.usage]
    simp [hne]

theorem Touches.consistent {tenantId : String} {f : Tenant → Tenant} {g : TenantUsage → TenantUsage}
    (h : Touches s s' tenantId f g) (hident : ∀ t, (f t).id = t.id)
    (hhash : ∀ t, (f t).apiKeyHash = t.apiKeyHash)
    (hdevices : ∀ t u, u.devices = t.deviceIds.length → (g u).devices = (f t).deviceIds.length)
    (hs : s.Consistent sha256) : s'.Consistent sha256 where
  named id t' ht' := by
    rw [h.tenants] at ht'
    obtain ⟨t, ht, rfl⟩ := Option.map_eq_some_iff.mp ht'
    rw [← hs.named id t ht]
    split_ifs
    · exact hident t
    · rfl
  measured id t' ht' := by
    rw [h.tenants] at ht'
    obtain ⟨t, ht, rfl⟩ := Option.map_eq_some_iff.mp ht'
    obtain ⟨u, hu, hlen⟩ := hs.measured id t ht
    refine ⟨_, by rw [h.usage, hu, Option.map_some], ?_⟩
    split_ifs
    · exact hdevices t u hlen
    · exact hlen
  keyed id := by
    rw [h.apiKeys, ← hs.keyed, h.tenants, Option.map_map]
    congr 1
    funext t
    by_cases heq : id = tenantId
    · rw [Function.comp_apply, if_pos heq, hhash]
    · rw [Function.comp_apply, if_neg heq]
  distinct := by
    rw [h.apiKeys]
    exact hs.distinct

theorem Creates.consistent {created : Tenant} {apiKey : String}
    (h : Creates sha256 s s' created apiKey) (hs : s.Consistent sha256) :
    s'.Consistent sha256 where
  named id t ht := by
    rw [h.tenants] at ht
    split_ifs at ht with heq
    · obtain rfl := Option.some.inj ht
      exact heq.symm
    · exact hs.named id t ht
  measured id t ht := by
    rw [h.tenants] at ht
    rw [h.usage]
    split_ifs at ht ⊢ with heq
    · obtain rfl := Option.some.inj ht
      exact ⟨_, rfl, by rw [h.deviceIds, List.length_nil]⟩
    · exact hs.measured id t ht
  keyed id := by
    rw [h.tenants, h.apiKeys]
    split_ifs with heq
    · rw [Option.map_some, Option.map_some, h.apiKeyHash]
    · exact hs.keyed id
  distinct id id' key hid hid' := by
    rw [h.apiKeys] at hid hid'
    split_ifs at hid hid' with heq heq' heq'
    · rw [heq, heq']
    · obtain rfl := Option.some.inj hid
      exact absurd hid' (h.newKey id')
    · obtain rfl := Option.some.inj hid'
      exact absurd hid (h.newKey id)
    · exact hs.distinct id id' key hid hid'

theorem Consistent.perform (h : s.Consistent sha256) (hdistinct : s.Distinct sha256 call) :
    (s.perform sha256 call).Consistent sha256 := by
  rcases perform_cases sha256 s call with ⟨name, tier, apiKey, now, rfl⟩ |
    ⟨tenantId, deviceId, t, u, rfl, -, -, -, -, htouches⟩ | ⟨-, f, g, hplain, htouches⟩
  · exact (creates_perform hdistinct).consistent h
  · exact htouches.consistent (fun _ => rfl) (fun _ => rfl)
      (fun t u hlen => by rw [List.length_append, List.length_singleton, hlen]) h
  · exact htouches.consistent hplain.ident hplain.apiKeyHash
      (fun t u hlen => by rw [hplain.devices, hplain.deviceIds, hlen]) h

/-- No device is listed twice, by two tenants or by one. -/
structure Owned (s : Session) : Prop where
  exclusive : ∀ id id' t t', s.manager.tenants.lookup id = some t →
    s.manager.tenants.lookup id' = some t' → ∀ deviceId, deviceId ∈ t.deviceIds →
    deviceId ∈ t'.deviceIds → id = id'
  nodup : ∀ id t, s.manager.tenants.lookup id = some t → t.deviceIds.Nodup

theorem owned_start : start.Owned where
  exclusive _ _ _ _ ht := by cases ht
  nodup _ _ ht := by cases ht

theorem length_dedup_eq_iff {l : List String} : l.length = l.dedup.length ↔ l.Nodup := by
  constructor
  · intro h
    rw [← (List.dedup_sublist l).eq_of_length h.symm]
    exact List.nodup_dedup l
  · intro h
    rw [h.dedup]

theorem Owned.tenantForDevice_ordered (howned : s.Owned) {mgr : MultiTenantManager}
    (horder : s.manager.tenants.Reordered mgr.tenants) (deviceId : String) :
    mgr.tenantForDevice deviceId = s.manager.tenantForDevice deviceId := by
  have hsome (mgr' : MultiTenantManager) (horder' : s.manager.tenants.Reordered mgr'.tenants)
      (t : Tenant) : mgr'.tenantForDevice deviceId = some t ↔
        deviceId ∈ t.deviceIds ∧ ∃ id, s.manager.tenants.lookup id = some t := by
    rw [MultiTenantManager.tenantForDevice, HashTable.find?_values_eq_some]
    · simp only [List.contains_iff_mem, HashTable.lookup_of_reordered horder']
    · intro t₁ t₂ h₁ h₂ hp₁ hp₂
      obtain ⟨id₁, hid₁⟩ := HashTable.mem_values.mp h₁
      obtain ⟨id₂, hid₂⟩ := HashTable.mem_values.mp h₂
      rw [HashTable.lookup_of_reordered horder'] at hid₁ hid₂
      obtain rfl := howned.exclusive id₁ id₂ t₁ t₂ hid₁ hid₂ deviceId (by simpa using hp₁)
        (by simpa using hp₂)
      exact Option.some.inj (hid₁.symm.trans hid₂)
  apply Option.ext
  intro t
  rw [hsome mgr horder, hsome s.manager (List.Perm.refl _)]

theorem Consistent.authenticate_iff (hinj : Function.Injective sha256) (h : s.Consistent sha256)
    {mgr : MultiTenantManager} (horder : s.manager.tenants.Reordered mgr.tenants)
    (apiKey : String) (ctx : TenantContext) :
    mgr.authenticate sha256 apiKey = some ctx ↔
      ∃ id t, s.apiKeys id = some apiKey ∧ s.manager.tenants.lookup id = some t ∧ t.active ∧
        ctx = ⟨id, t.tier, t.resourceQuota⟩ := by
  -- a tenant with the digest of the key was created with the key
  have hkey (id : String) (t : Tenant) (ht : s.manager.tenants.lookup id = some t)
      (hhash : t.apiKeyHash = sha256Hex sha256 (asBytes apiKey)) : s.apiKeys id = some apiKey := by
    have hkeyed := h.keyed id
    rw [ht, Option.map_some, hhash] at hkeyed
    obtain ⟨key, hkey, heq⟩ := Option.map_eq_some_iff.mp hkeyed.symm
    rw [hkey, asBytes_injective (hinj (hexEncode_injective heq))]
  have hhash (id : String) (t : Tenant) (ht : s.manager.tenants.lookup id = some t)
      (hid : s.apiKeys id = some apiKey) : t.apiKeyHash = sha256Hex sha256 (asBytes apiKey) := by
    have hkeyed := h.keyed id
    rw [ht, hid, Option.map_some, Option.map_some] at hkeyed
    exact Option.some.inj hkeyed
  rw [MultiTenantManager.authenticate, Option.map_eq_some_iff]
  rw [exists_congr fun t => and_congr_left' (HashTable.find?_values_eq_some ?_)]
  · simp only [Bool.and_eq_true, beq_iff_eq, HashTable.lookup_of_reordered horder]
    constructor
    · rintro ⟨t, ⟨⟨ht, hactive⟩, id, hid⟩, rfl⟩
      refine ⟨id, t, hkey id t hid ht, hid, hactive, ?_⟩
      rw [Tenant.context, h.named id t hid]
    · rintro ⟨id, t, hid, ht, hactive, rfl⟩
      refine ⟨t, ⟨⟨hhash id t ht hid, hactive⟩, id, ht⟩, ?_⟩
      rw [Tenant.context, h.named id t ht]
  · intro t₁ t₂ h₁ h₂ hp₁ hp₂
    obtain ⟨id₁, hid₁⟩ := HashTable.mem_values.mp h₁
    obtain ⟨id₂, hid₂⟩ := HashTable.mem_values.mp h₂
    rw [HashTable.lookup_of_reordered horder] at hid₁ hid₂
    simp only [Bool.and_eq_true, beq_iff_eq] at hp₁ hp₂
    obtain rfl := h.distinct id₁ id₂ apiKey (hkey id₁ t₁ hid₁ hp₁.1) (hkey id₂ t₂ hid₂ hp₂.1)
    exact Option.some.inj (hid₁.symm.trans hid₂)

theorem Consistent.partitioned_iff (hinj : Function.Injective sha256) (h : s.Consistent sha256) :
    s.Partitioned sha256 ↔ s.Owned := by
  constructor
  · intro hpart
    refine ⟨hpart.exclusive, fun id t ht => ?_⟩
    obtain ⟨u, hu, hlen⟩ := h.measured id t ht
    exact length_dedup_eq_iff.mp (hlen.symm.trans (hpart.counted id t u ht hu))
  · intro howned
    refine ⟨howned.exclusive, fun mgr horder => howned.tenantForDevice_ordered horder, ?_,
      fun mgr horder => h.authenticate_iff hinj horder⟩
    intro id t u ht hu
    obtain ⟨u', hu', hlen⟩ := h.measured id t ht
    obtain rfl := Option.some.inj (hu.symm.trans hu')
    rw [hlen, length_dedup_eq_iff.mpr (howned.nodup id t ht)]

theorem Creates.owned {created : Tenant} {apiKey : String}
    (h : Creates sha256 s s' created apiKey) (hs : s.Owned) : s'.Owned where
  exclusive id id' t t' ht ht' d hd hd' := by
    rw [h.tenants] at ht ht'
    split_ifs at ht ht' with heq heq' heq'
    · rw [heq, heq']
    · obtain rfl := Option.some.inj ht
      rw [h.deviceIds] at hd
      cases hd
    · obtain rfl := Option.some.inj ht'
      rw [h.deviceIds] at hd'
      cases hd'
    · exact hs.exclusive id id' t t' ht ht' d hd hd'
  nodup id t ht := by
    rw [h.tenants] at ht
    split_ifs at ht
    · obtain rfl := Option.some.inj ht
      rw [h.deviceIds]
      exact List.nodup_nil
    · exact hs.nodup id t ht

theorem Touches.owned_of_plain {tenantId : String} {f : Tenant → Tenant}
    {g : TenantUsage → TenantUsage} (h : Touches s s' tenantId f g) (hplain : Plain f g)
    (hs : s.Owned) : s'.Owned := by
  have hdevices (id : String) (t' : Tenant) (ht' : s'.manager.tenants.lookup id = some t') :
      ∃ t, s.manager.tenants.lookup id = some t ∧ t'.deviceIds = t.deviceIds := by
    rw [h.tenants] at ht'
    obtain ⟨t, ht, rfl⟩ := Option.map_eq_some_iff.mp ht'
    refine ⟨t, ht, ?_⟩
    split_ifs
    · exact hplain.deviceIds t
    · rfl
  refine ⟨fun id id' t₁ t₂ ht₁ ht₂ d hd₁ hd₂ => ?_, fun id t' ht' => ?_⟩
  · obtain ⟨old, hold, heq⟩ := hdevices id t₁ ht₁
    obtain ⟨old', hold', heq'⟩ := hdevices id' t₂ ht₂
    exact hs.exclusive id id' old old' hold hold' d (heq ▸ hd₁) (heq' ▸ hd₂)
  · obtain ⟨old, hold, heq⟩ := hdevices id t' ht'
    rw [heq]
    exact hs.nodup id old hold

/-- A device is added that no tenant has. -/
theorem Touches.owned_of_fresh {tenantId deviceId : String} {g : TenantUsage → TenantUsage}
    (h : Touches s s' tenantId (fun t => { t with deviceIds := t.deviceIds ++ [deviceId] }) g)
    (hfresh : ∀ id t, s.manager.tenants.lookup id = some t → deviceId ∉ t.deviceIds)
    (hs : s.Owned) : s'.Owned := by
  -- a device of a tenant after the call is an old one of it, or the new one
  have hdevices (id : String) (t' : Tenant) (ht' : s'.manager.tenants.lookup id = some t')
      (d : String) (hd : d ∈ t'.deviceIds) :
      (∃ t, s.manager.tenants.lookup id = some t ∧ d ∈ t.deviceIds) ∨
        id = tenantId ∧ d = deviceId := by
    rw [h.tenants] at ht'
    obtain ⟨t, ht, rfl⟩ := Option.map_eq_some_iff.mp ht'
    split_ifs at hd with heq
    · rcases List.mem_append.mp hd with hd | hd
      · exact Or.inl ⟨t, ht, hd⟩
      · exact Or.inr ⟨heq, List.mem_singleton.mp hd⟩
    · exact Or.inl ⟨t, ht, hd⟩
  refine ⟨fun id id' t₁ t₂ ht₁ ht₂ d hd₁ hd₂ => ?_, fun id t' ht' => ?_⟩
  · rcases hdevices id t₁ ht₁ d hd₁ with ⟨old, hold, hmem⟩ | ⟨hid, hd⟩
    · rcases hdevices id' t₂ ht₂ d hd₂ with ⟨old', hold', hmem'⟩ | ⟨-, rfl⟩
      · exact hs.exclusive id id' old old' hold hold' d hmem hmem'
      · exact absurd hmem (hfresh id old hold)
    · rcases hdevices id' t₂ ht₂ d hd₂ with ⟨old', hold', hmem'⟩ | ⟨hid', -⟩
      · rw [hd] at hmem'
        exact absurd hmem' (hfresh id' old' hold')
      · rw [hid, hid']
  · rw [h.tenants] at ht'
    obtain ⟨old, hold, rfl⟩ := Option.map_eq_some_iff.mp ht'
    split_ifs
    · have hdisjoint : ∀ a ∈ old.deviceIds, ∀ b ∈ [deviceId], a ≠ b := by
        rintro a ha b hb rfl
        rw [List.mem_singleton.mp hb] at ha
        exact hfresh id old hold ha
      exact List.nodup_append.mpr ⟨hs.nodup id old hold, List.nodup_singleton _, hdisjoint⟩
    · exact hs.nodup id old hold

/-- A call that registers no device, or one that no tenant has. -/
theorem Owned.perform (h : s.Owned) (hdistinct : s.Distinct sha256 call)
    (hunowned : s.Unowned call) : (s.perform sha256 call).Owned := by
  rcases perform_cases sha256 s call with ⟨name, tier, apiKey, now, rfl⟩ |
    ⟨tenantId, deviceId, t, u, rfl, hok, -, -, -, htouches⟩ | ⟨-, f, g, hplain, htouches⟩
  · exact (creates_perform hdistinct).owned h
  · exact htouches.owned_of_fresh (hunowned tenantId deviceId rfl hok) h
  · exact htouches.owned_of_plain hplain h

/-- A device that a tenant has already is then listed twice. -/
theorem Owned.unowned (h : (s.perform sha256 call).Owned) : s.Unowned call := by
  rintro tenantId deviceId rfl hok id t ht hmem
  rcases perform_cases sha256 s (.registerDevice tenantId deviceId) with ⟨_, _, _, _, hcall⟩ |
    ⟨tenantId', deviceId', owner, _, hcall, -, howner, -, -, htouches⟩ | ⟨hnot, -⟩
  · cases hcall
  · obtain ⟨rfl, rfl⟩ := Call.registerDevice.inj hcall
    have howner' : (s.perform sha256 (.registerDevice tenantId deviceId)).manager.tenants.lookup
        tenantId = some { owner with deviceIds := owner.deviceIds ++ [deviceId] } := by
      rw [htouches.tenants, howner, Option.map_some, if_pos rfl]
    rcases eq_or_ne id tenantId with rfl | hne
    · obtain rfl := Option.some.inj (ht.symm.trans howner)
      exact (List.nodup_append.mp (h.nodup id _ howner')).2.2 deviceId hmem deviceId
        (List.mem_singleton_self _) rfl
    · have ht' : (s.perform sha256 (.registerDevice tenantId deviceId)).manager.tenants.lookup id =
          some t := by
        rw [htouches.tenants, ht, Option.map_some, if_neg hne]
      exact hne (h.exclusive id tenantId t _ ht' howner' deviceId hmem (by simp))
  · exact hnot tenantId deviceId rfl hok

theorem Consistent.contained (h : s.Consistent sha256) (hdistinct : s.Distinct sha256 call) :
    s.Contained sha256 call := by
  rcases perform_cases sha256 s call with ⟨name, tier, apiKey, now, rfl⟩ |
    ⟨tenantId, deviceId, t, u, rfl, hok, ht, hu, hroom, htouches⟩ | ⟨hnot, f, g, hplain, htouches⟩
  · have hcreates := creates_perform hdistinct
    refine ⟨nofun, fun id hne => ⟨?_, ?_⟩⟩
    · rw [hcreates.tenants]
      exact if_neg hne
    · rw [hcreates.usage]
      exact if_neg hne
  · refine ⟨?_, fun id hne => htouches.frame hne⟩
    · rintro _ _ hcall - t' ht'
      obtain ⟨rfl, rfl⟩ := Call.registerDevice.inj hcall
      rw [htouches.tenants, ht, Option.map_some, if_pos rfl] at ht'
      obtain rfl := Option.some.inj ht'
      obtain ⟨u', hu', hlen⟩ := h.measured tenantId t ht
      obtain rfl := Option.some.inj (hu.symm.trans hu')
      rw [List.length_append, List.length_singleton, ← hlen]
      exact hroom
  · exact ⟨fun tenantId deviceId hcall hok => absurd hok (hnot tenantId deviceId hcall),
      fun id hne => htouches.frame hne⟩

end Session

/-- **When tenants are kept apart.**  In a run in which tenants have identifiers and keys of their
own, every state is partitioned and every call contained if and only if no device is registered that
a tenant has already. -/
theorem partitioned_iff_unowned {sha256 : List UInt8 → List UInt8}
    (hinj : Function.Injective sha256) (calls : List Call)
    (hdistinct : Along (Session.perform sha256) (Session.Distinct sha256) .start calls) :
    Throughout (Session.perform sha256) (Session.Partitioned sha256) .start calls ∧
        Along (Session.perform sha256) (Session.Contained sha256) .start calls ↔
      Along (Session.perform sha256) Session.Unowned .start calls := by
  constructor
  · rintro ⟨hpart, -⟩
    refine along_of_throughout (I := Session.Consistent sha256) (fun s call h => h.perform)
      ?_ Session.consistent_start hdistinct hpart
    intro s call h hd _ hpart
    exact (((h.perform hd).partitioned_iff hinj).mp hpart).unowned
  · intro hunowned
    refine ⟨?_, along_of_invariant (fun s call h => h.perform) (fun s call h => h.contained)
      Session.consistent_start hdistinct⟩
    refine throughout_of_invariant (I := fun s => s.Consistent sha256 ∧ s.Owned)
      (fun s call h hp => ⟨h.1.perform hp.1, h.2.perform hp.1 hp.2⟩)
      (fun s h => (h.1.partitioned_iff hinj).mpr h.2)
      ⟨Session.consistent_start, Session.owned_start⟩ (hdistinct.and hunowned)

/-- Two tenants, and a device of the first. -/
def twoTenants : List Call :=
  [.createTenant "acme" .free "key-1" "2026-01-01T00:00:00+00:00",
    .createTenant "beta" .free "key-2" "2026-01-01T00:00:00+00:00",
    .registerDevice "74656e616e743a61" "dev-1"]

theorem distinct_twoTenants (calls : List Call)
    (h : ∀ call ∈ calls, ∀ name tier apiKey now, call ≠ .createTenant name tier apiKey now) :
    Along (Session.perform id) (Session.Distinct id) .start (twoTenants ++ calls) := by
  have hrest (s : Session) : Along (Session.perform id) (Session.Distinct id) s calls := by
    induction calls generalizing s with
    | nil => trivial
    | cons call calls ih =>
      refine ⟨fun name tier apiKey now hcall => ?_, ih (fun c hc => h c (.tail _ hc)) _⟩
      exact absurd hcall (h call List.mem_cons_self name tier apiKey now)
  refine ⟨?_, ?_, nofun, hrest _⟩
  · rintro _ _ _ _ hcall
    obtain ⟨rfl, rfl, rfl, rfl⟩ := Call.createTenant.inj hcall
    exact ⟨rfl, fun _ hkey => by cases hkey⟩
  · rintro _ _ _ _ hcall
    obtain ⟨rfl, rfl, rfl, rfl⟩ := Call.createTenant.inj hcall
    refine ⟨by decide, fun tenantId hkey => ?_⟩
    rcases eq_or_ne tenantId (MultiTenantManager.new.tenantId id "acme") with rfl | hne
    · exact absurd hkey (by decide)
    · have hnone : (some "key-2" : Option String) = none :=
        hkey.symm.trans (KeyMap.insert_of_ne _ hne _)
      cases hnone

theorem partitioned_twoTenants :
    Throughout (Session.perform id) (Session.Partitioned id) .start (twoTenants ++ []) ∧
      Along (Session.perform id) (Session.Contained id) .start (twoTenants ++ []) := by
  refine (partitioned_iff_unowned Function.injective_id _
    (distinct_twoTenants [] (fun _ h => by cases h))).mpr ⟨nofun, nofun, ?_, trivial⟩
  rintro _ _ hcall - tenantId t ht
  obtain ⟨rfl, rfl⟩ := Call.registerDevice.inj hcall
  have hnone : ∀ t ∈ (run (Session.perform id) .start (twoTenants.take 2)).manager.tenants.values,
      "dev-1" ∉ t.deviceIds := by decide
  exact hnone t (HashTable.mem_values.mpr ⟨tenantId, ht⟩)

/-- A device is registered by two tenants, and each of them has it. -/
theorem device_of_two_tenants :
    Function.Injective (id : List UInt8 → List UInt8) ∧
      Along (Session.perform id) (Session.Distinct id) .start
        (twoTenants ++ [.registerDevice "74656e616e743a62" "dev-1"]) ∧
      ¬ Throughout (Session.perform id) (Session.Partitioned id) .start
        (twoTenants ++ [.registerDevice "74656e616e743a62" "dev-1"]) := by
  refine ⟨Function.injective_id, distinct_twoTenants _ (by simp), fun h => ?_⟩
  have hlast := (Throughout.last h).exclusive "74656e616e743a61" "74656e616e743a62" _ _ rfl rfl
    "dev-1" List.mem_cons_self List.mem_cons_self
  exact absurd hlast (by decide)

end Wardex.Tenants
