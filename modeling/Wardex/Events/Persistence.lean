import Mathlib.Order.MinMax
import Wardex.Events.Store
import Wardex.Lib.Run
import Wardex.Lib.Table

/-! The event store on disk.  The counter of the ids is stored with the events, and read back only
if an event is read back with it.  Every restart yields the store it found, and no id is given out
twice, exactly if the database never loses the counter. -/

namespace Wardex.Events

open Wardex.Lib Wardex.Enrollment

/-- The JSON text of an event, and reading it back, which may fail or lose detail but keeps the
id. -/
structure EventJson (S A P : Type) where
  encode : StoredEvent S A → P
  decode : P → Option (StoredEvent S A)
  decode_id : ∀ e e', decode (encode e) = some e' → e'.id = e.id

structure EventStoreSnapshot (S A : Type) where
  events : List (StoredEvent S A)
  nextId : UInt64

/-- The database and the legacy snapshot next to it. -/
structure EventDisk (S A P : Type) where
  records : List (Int × P)
  storedNextId : Option UInt64
  legacy : Option (EventStoreSnapshot S A)

variable {S A P : Type}

/-- `event.id as i64`. -/
def StoredEvent.rowId (event : StoredEvent S A) : Int := toI64 event.id.toNat

/-- The highest id, 0 if there is no event. -/
def maxId (events : List (StoredEvent S A)) : UInt64 :=
  events.foldr (fun event highest => max event.id highest) 0

variable (json : EventJson S A P)

namespace EventStore

def persist (store : EventStore S A) (disk : EventDisk S A P) : EventDisk S A P :=
  { disk with
    records := tableOf (store.events.map fun event => (event.rowId, json.encode event))
    storedNextId := some store.nextId }

/-- Fills an empty store from the database or, if that holds no event, from the legacy snapshot,
which is moved into the database. -/
def load (store : EventStore S A) (disk : EventDisk S A P) : EventStore S A × EventDisk S A P :=
  let events := disk.records.filterMap fun record => json.decode record.2
  if events ≠ [] then
    ({ store with
      events := events
      nextId := max (disk.storedNextId.getD 0) (maxId events + 1) }, disk)
  else
    match disk.legacy with
    | none => (store, disk)
    | some snapshot =>
      let store := { store with
        events := snapshot.events
        nextId := max snapshot.nextId (maxId snapshot.events + 1) }
      (store, { store.persist json disk with legacy := none })

def newWithPath (maxEvents : Nat) (disk : EventDisk S A P) : EventStore S A × EventDisk S A P :=
  let loaded := (new maxEvents : EventStore S A).load json disk
  (loaded.1.trimToLimit, loaded.2)

end EventStore

/-! ## Calls and restarts -/

inductive EventStoreCall (S A : Type) where
  | ingest (batch : EventBatch S A) (now : Int)
  | updateTriage (eventId : UInt64) (update : EventTriageUpdate) (now : Int)
  | bulkUpdateTriage (eventIds : List UInt64) (update : EventTriageUpdate) (now : Int)
  | applyRetention (max : Nat)
  | restart

/-- The store, its disk, and the id of every event ever ingested. -/
structure EventWorld (S A P : Type) where
  store : EventStore S A
  disk : EventDisk S A P
  issued : List UInt64

namespace EventWorld

variable (env : StoreEnv S)

/-- The store as it is first opened, on a new database. -/
def start (maxEvents : Nat) (legacy : Option (EventStoreSnapshot S A)) : EventWorld S A P :=
  let opened := EventStore.newWithPath json maxEvents ⟨[], none, legacy⟩
  ⟨opened.1, opened.2, []⟩

def saved (w : EventWorld S A P) (store : EventStore S A) : EventWorld S A P :=
  { w with store := store, disk := store.persist json w.disk }

def after (w : EventWorld S A P) : EventStoreCall S A → EventWorld S A P
  | .ingest batch now =>
    { w.saved json (w.store.ingest env batch now).1 with
      issued := w.issued ++ (EventStore.receivedEvents batch.agentId (env.chrono.format now)
        w.store.nextId batch.events).map StoredEvent.id }
  | .updateTriage eventId update now =>
    let updated := w.store.updateTriage env eventId update now
    match updated.2 with
    | .ok _ => w.saved json updated.1
    | .error _ => w
  | .bulkUpdateTriage eventIds update now =>
    w.saved json (w.store.bulkUpdateTriage env update now eventIds).1
  | .applyRetention max =>
    let retained := w.store.applyRetention max
    if retained.2 = 0 then w else w.saved json retained.1
  | .restart =>
    let opened := EventStore.newWithPath json w.store.maxEvents w.disk
    { w with store := opened.1, disk := opened.2 }

/-- No two events have received one id. -/
def IdsUnique (w : EventWorld S A P) : Prop := w.issued.Nodup

/-- Opening the store again yields the events and the counter it had. -/
def Reopened (w : EventWorld S A P) : EventStoreCall S A → Prop
  | .restart =>
    (w.after json env .restart).store.events = w.store.events ∧
      (w.after json env .restart).store.nextId = w.store.nextId
  | _ => True

/-- What a restart has to find: the database holds an event, unless no id has been given out; the
text of every event reads back as the event; the ids ascend as the database orders them; and the
counter is beyond them. -/
structure Restorable (w : EventWorld S A P) : Prop where
  counted : w.disk.records = [] → w.store.nextId = 1
  readable : ∀ event ∈ w.store.events, json.decode (json.encode event) = some event
  ascending : (w.store.events.map StoredEvent.rowId).Pairwise (· < ·)
  ahead : maxId w.store.events + 1 ≤ w.store.nextId

/-- Restarts find what they need, and there are ids enough for all events. -/
def Permitted (w : EventWorld S A P) : EventStoreCall S A → Prop
  | .ingest batch _ => w.issued.length + batch.events.length ≤ 2 ^ 64
  | .restart => w.Restorable json
  | _ => True

end EventWorld

variable {json : EventJson S A P} {env : StoreEnv S}

/-! ## Ids -/

instance instLinearOrderUInt64 : LinearOrder UInt64 where
  le_refl _ := UInt64.le_refl _
  le_trans _ _ _ := UInt64.le_trans
  le_antisymm _ _ := UInt64.le_antisymm
  le_total := UInt64.le_total
  lt_iff_le_not_ge a b := by
    rw [UInt64.not_le]
    exact ⟨fun h => ⟨UInt64.le_of_lt h, h⟩, And.right⟩
  toDecidableLE := inferInstance

/-- The ids of `n` events of which the first has the id `first`. -/
def idsFrom (first : UInt64) (n : Nat) : List UInt64 :=
  (List.range n).map fun i => first + UInt64.ofNat i

theorem length_idsFrom (first : UInt64) (n : Nat) : (idsFrom first n).length = n := by
  rw [idsFrom, List.length_map, List.length_range]

theorem idsFrom_add (first : UInt64) (m n : Nat) :
    idsFrom first (m + n) = idsFrom first m ++ idsFrom (first + UInt64.ofNat m) n := by
  rw [idsFrom, List.range_add, List.map_append, List.map_map, idsFrom, idsFrom]
  refine congrArg _ (List.map_congr_left fun i _ => ?_)
  rw [Function.comp_apply, UInt64.ofNat_add, UInt64.add_assoc]

theorem map_id_receivedEvents (agentId receivedAt : String) (first : UInt64)
    (alerts : List (AlertRecord S A)) :
    (EventStore.receivedEvents agentId receivedAt first alerts).map StoredEvent.id =
      idsFrom first alerts.length := by
  induction alerts generalizing first with
  | nil => rfl
  | cons alert alerts ih =>
    have hone : idsFrom first 1 = [first] := by
      rw [idsFrom, List.range_one, List.map_singleton]
      exact congrArg (fun id => [id]) (UInt64.add_zero first)
    rw [EventStore.receivedEvents, List.map_cons, ih, List.length_cons, Nat.add_comm, idsFrom_add,
      hone]
    rfl

/-- The ids are distinct up to the number of them that there are. -/
theorem nodup_idsFrom_iff (first : UInt64) (n : Nat) : (idsFrom first n).Nodup ↔ n ≤ 2 ^ 64 := by
  constructor
  · intro h
    by_contra hn
    have hzero : 0 ∈ List.range n := List.mem_range.mpr (by omega)
    have hlast : 2 ^ 64 ∈ List.range n := List.mem_range.mpr (by omega)
    exact absurd (List.inj_on_of_nodup_map h hzero hlast rfl) (by decide)
  · intro hn
    refine List.Nodup.map_on (fun i hi j hj h => ?_) List.nodup_range
    have hi : i < 2 ^ 64 := (List.mem_range.mp hi).trans_le hn
    have hj : j < 2 ^ 64 := (List.mem_range.mp hj).trans_le hn
    have hnat := congrArg UInt64.toNat ((UInt64.add_right_inj first).mp h)
    rwa [UInt64.toNat_ofNat_of_lt' hi, UInt64.toNat_ofNat_of_lt' hj] at hnat

theorem id_le_maxId {events : List (StoredEvent S A)} {event : StoredEvent S A}
    (h : event ∈ events) : event.id ≤ maxId events := by
  induction events with
  | nil => exact absurd h List.not_mem_nil
  | cons first events ih =>
    rw [maxId, List.foldr_cons, ← maxId]
    rcases List.mem_cons.mp h with rfl | h
    · exact le_max_left _ _
    · exact (ih h).trans (le_max_right _ _)

theorem maxId_le {events : List (StoredEvent S A)} {bound : UInt64}
    (h : ∀ event ∈ events, event.id ≤ bound) : maxId events ≤ bound := by
  induction events with
  | nil => exact UInt64.zero_le
  | cons first events ih =>
    rw [maxId, List.foldr_cons, ← maxId]
    exact max_le (h first List.mem_cons_self)
      (ih fun event he => h event (List.mem_cons_of_mem _ he))

theorem maxId_subset {events events' : List (StoredEvent S A)} (h : events ⊆ events') :
    maxId events ≤ maxId events' := maxId_le fun _ he => id_le_maxId (h he)

theorem toNat_maxId_lt {events : List (StoredEvent S A)} {n : Nat} (hn : 0 < n)
    (h : ∀ event ∈ events, event.id.toNat < n) : (maxId events).toNat < n := by
  induction events with
  | nil => exact hn
  | cons first events ih =>
    rw [maxId, List.foldr_cons, ← maxId]
    rcases max_choice first.id (maxId events) with hmax | hmax
    · rw [hmax]
      exact h first List.mem_cons_self
    · rw [hmax]
      exact ih fun event he => h event (List.mem_cons_of_mem _ he)

/-! ## What the database holds -/

/-- The text of every event reads back as the event, and the ids ascend as the database orders
them. -/
structure Recorded (json : EventJson S A P) (events : List (StoredEvent S A)) : Prop where
  readable : ∀ event ∈ events, json.decode (json.encode event) = some event
  ascending : (events.map StoredEvent.rowId).Pairwise (· < ·)

/-- A snapshot of an older version: its events can be recorded, and their ids are positive as
signed numbers too. -/
structure EventStoreSnapshot.WellFormed (json : EventJson S A P)
    (snapshot : EventStoreSnapshot S A) : Prop where
  recorded : Recorded json snapshot.events
  small : ∀ event ∈ snapshot.events, event.id.toNat < 2 ^ 63

variable {events saved : List (StoredEvent S A)} {disk : EventDisk S A P}

theorem Recorded.sublist (h : Recorded json saved) (hsub : events.Sublist saved) :
    Recorded json events :=
  ⟨fun event he => h.readable event (hsub.subset he), h.ascending.sublist (hsub.map _)⟩

def records (json : EventJson S A P) (events : List (StoredEvent S A)) : List (Int × P) :=
  tableOf (events.map fun event => (event.rowId, json.encode event))

def recalled (json : EventJson S A P) (disk : EventDisk S A P) : List (StoredEvent S A) :=
  disk.records.filterMap fun record => json.decode record.2

theorem recalled_eq_iff (h : disk.records = records json saved) :
    recalled json disk = saved ↔ Recorded json saved := by
  have hkey (e e' : StoredEvent S A) (he : json.decode (json.encode e) = some e') :
      e'.rowId = e.rowId := by
    rw [StoredEvent.rowId, StoredEvent.rowId, json.decode_id e e' he]
  rw [recalled, h, records, filterMap_tableOf_eq_self hkey]
  exact ⟨fun ⟨hascending, hreadable⟩ => ⟨hreadable, hascending⟩,
    fun hr => ⟨hr.ascending, hr.readable⟩⟩

theorem length_recalled_le (h : disk.records = records json saved) :
    (recalled json disk).length ≤ saved.length := by
  refine (List.length_filterMap_le _ _).trans ?_
  rw [h]
  exact (length_tableOf_le _).trans_eq (List.length_map _)

/-- The database holds what was saved last: the events of the store or, right after a snapshot was
moved into it, all events of the snapshot. -/
structure Written (json : EventJson S A P) (store : EventStore S A) (disk : EventDisk S A P)
    (saved : List (StoredEvent S A)) : Prop where
  records : disk.records = records json saved
  counter : saved ≠ [] → disk.storedNextId = some store.nextId
  kept : store.events = saved.drop (saved.length - store.maxEvents)
  whole : store.events = saved ∨ (Recorded json saved ∧ (∀ event ∈ saved, event.id.toNat < 2 ^ 63) ∧
    maxId saved + 1 ≤ store.nextId)
  migrated : disk.legacy = none

theorem newWithPath_of_migrated {maxEvents : Nat} (h : disk.legacy = none) :
    EventStore.newWithPath json maxEvents disk =
      ({ events := (recalled json disk).drop ((recalled json disk).length - maxEvents)
         nextId := if recalled json disk = [] then 1
           else max (disk.storedNextId.getD 0) (maxId (recalled json disk) + 1)
         maxEvents := maxEvents
         correlationWindowSecs := 60 }, disk) := by
  unfold EventStore.newWithPath EventStore.load
  rw [← recalled]
  dsimp only
  by_cases hnil : recalled json disk = []
  · rw [if_neg (not_not_intro hnil), h, hnil]
    rfl
  · rw [if_pos hnil, if_neg hnil]
    rfl

namespace Written

variable {store : EventStore S A}

theorem length_le (h : Written json store disk saved) :
    store.events.length ≤ store.maxEvents := by
  rw [h.kept, List.length_drop]
  omega

theorem sublist (h : Written json store disk saved) : store.events.Sublist saved := by
  rw [h.kept]
  exact List.drop_sublist _ _

/-- If the database gives back what was saved, only the counter can go wrong. -/
theorem nextId_eq_iff (h : Written json store disk saved) (hrecalled : recalled json disk = saved) :
    (EventStore.newWithPath json store.maxEvents disk).1.nextId = store.nextId ↔
      (saved = [] → store.nextId = 1) ∧ (saved ≠ [] → maxId saved + 1 ≤ store.nextId) := by
  rw [newWithPath_of_migrated h.migrated, hrecalled]
  by_cases hnil : saved = []
  · simp [hnil, eq_comm]
  · simp [hnil, h.counter hnil]

/-- Reading back less than was saved does not yield the events of the store. -/
theorem recalled_eq (h : Written json store disk saved)
    (hevents : (EventStore.newWithPath json store.maxEvents disk).1.events = store.events) :
    recalled json disk = saved := by
  rcases h.whole with hwhole | ⟨hrecorded, -, -⟩
  · rw [newWithPath_of_migrated h.migrated, hwhole] at hevents
    have hsub : saved.Sublist (recalled json disk) := by
      rw [← hevents]
      exact List.drop_sublist _ _
    exact (hsub.eq_of_length_le (length_recalled_le h.records)).symm
  · exact (recalled_eq_iff h.records).mpr hrecorded

theorem events_eq (h : Written json store disk saved) (hrecalled : recalled json disk = saved) :
    (EventStore.newWithPath json store.maxEvents disk).1.events = store.events := by
  rw [newWithPath_of_migrated h.migrated, hrecalled, h.kept]

theorem maxId_events_add_one_le (h : Written json store disk saved)
    (hmax : maxId saved + 1 ≤ store.nextId) : maxId store.events + 1 ≤ store.nextId := by
  rcases h.whole with hwhole | ⟨-, hsmall, -⟩
  · rwa [hwhole]
  · have hle : maxId store.events ≤ maxId saved := maxId_subset h.sublist.subset
    have hlt : (maxId saved).toNat < 2 ^ 63 := toNat_maxId_lt (by decide) hsmall
    refine le_trans ?_ hmax
    rw [UInt64.le_iff_toNat_le] at hle ⊢
    rw [UInt64.toNat_add, UInt64.toNat_add, UInt64.toNat_one]
    omega

end Written

theorem reopened_iff {w : EventWorld S A P} (h : Written json w.store w.disk saved) :
    w.Reopened json env .restart ↔ w.Restorable json := by
  constructor
  · rintro ⟨hevents, hnextId⟩
    have hrecalled := h.recalled_eq hevents
    obtain ⟨hnil, hcons⟩ := (h.nextId_eq_iff hrecalled).mp hnextId
    have hrecorded := ((recalled_eq_iff h.records).mp hrecalled).sublist h.sublist
    refine ⟨fun hempty => hnil ?_, hrecorded.readable, hrecorded.ascending, ?_⟩
    · rw [← hrecalled, recalled, hempty, List.filterMap_nil]
    · by_cases hsaved : saved = []
      · have hstore : w.store.events = [] := List.sublist_nil.mp (hsaved ▸ h.sublist)
        rw [hstore, hnil hsaved]
        exact le_refl _
      · exact h.maxId_events_add_one_le (hcons hsaved)
  · intro hw
    have hrecorded : Recorded json saved := by
      rcases h.whole with hwhole | ⟨hrecorded, -, -⟩
      · exact hwhole ▸ ⟨hw.readable, hw.ascending⟩
      · exact hrecorded
    have hrecalled := (recalled_eq_iff h.records).mpr hrecorded
    refine ⟨h.events_eq hrecalled, (h.nextId_eq_iff hrecalled).mpr ⟨?_, fun hsaved => ?_⟩⟩
    · rintro rfl
      exact hw.counted h.records
    · rcases h.whole with hwhole | ⟨-, -, hmax⟩
      · exact hwhole ▸ hw.ahead
      · exact hmax

/-! ## Runs -/

theorem Written.persist {store : EventStore S A} (h : store.events.length ≤ store.maxEvents)
    (hmigrated : disk.legacy = none) :
    Written json store (store.persist json disk) store.events :=
  ⟨rfl, fun _ => rfl, by rw [Nat.sub_eq_zero_of_le h, List.drop_zero], .inl rfl, hmigrated⟩

namespace EventWorld

variable {w : EventWorld S A P}

/-- The database holds the events, and the ids given out are the ones from the first on. -/
structure Consistent (json : EventJson S A P) (first : UInt64) (w : EventWorld S A P) : Prop where
  written : ∃ saved, Written json w.store w.disk saved
  issued : w.issued = idsFrom first w.issued.length
  counter : w.store.nextId = first + UInt64.ofNat w.issued.length

theorem Consistent.length_le {first : UInt64} (h : w.Consistent json first) :
    w.store.events.length ≤ w.store.maxEvents := by
  obtain ⟨saved, hwritten⟩ := h.written
  exact hwritten.length_le

/-- Saving a store that gave out no id. -/
theorem Consistent.keep {first : UInt64} (h : w.Consistent json first) {store : EventStore S A}
    (hlength : store.events.length ≤ store.maxEvents) (hnextId : store.nextId = w.store.nextId) :
    (w.saved json store).Consistent json first := by
  obtain ⟨saved, hwritten⟩ := h.written
  exact ⟨⟨store.events, .persist hlength hwritten.migrated⟩, h.issued, hnextId.trans h.counter⟩

theorem Consistent.ingest {first : UInt64} (h : w.Consistent json first)
    (batch : EventBatch S A) (now : Int) :
    (w.after json env (.ingest batch now)).Consistent json first := by
  obtain ⟨saved, hwritten⟩ := h.written
  have hissued : (w.after json env (.ingest batch now)).issued =
      idsFrom first (w.issued.length + batch.events.length) := by
    rw [idsFrom_add, ← h.counter, ← h.issued, ← map_id_receivedEvents]
    rfl
  have hlength := congrArg List.length hissued
  rw [length_idsFrom] at hlength
  refine ⟨⟨_, .persist (EventStore.length_events_ingest_le batch now) hwritten.migrated⟩, ?_, ?_⟩
  · rw [hlength, hissued]
  · rw [hlength, UInt64.ofNat_add, ← UInt64.add_assoc, ← h.counter]
    rfl

theorem Consistent.applyRetention {first : UInt64} (h : w.Consistent json first) (max : Nat) :
    (w.after json env (.applyRetention max)).Consistent json first := by
  rw [after, EventStore.applyRetention]
  split_ifs with hmax hzero
  · exact h
  · exact absurd rfl hzero
  · exact h
  · refine h.keep ?_ rfl
    exact (List.drop_sublist _ _).length_le.trans h.length_le

/-- A restart that yields the store it found changes nothing that counts. -/
theorem Consistent.restart {first : UInt64} (h : w.Consistent json first)
    (hreopened : w.Reopened json env .restart) :
    (w.after json env .restart).Consistent json first := by
  obtain ⟨saved, hwritten⟩ := h.written
  obtain ⟨hevents, hnextId⟩ := hreopened
  rw [after, newWithPath_of_migrated hwritten.migrated] at hevents hnextId ⊢
  refine ⟨⟨saved, hwritten.records, fun hne => ?_, hevents.trans hwritten.kept, ?_,
    hwritten.migrated⟩, h.issued, hnextId.trans h.counter⟩
  · exact (hwritten.counter hne).trans (congrArg some hnextId.symm)
  · exact hevents.symm ▸ hnextId.symm ▸ hwritten.whole

theorem consistent_after {first : UInt64} (h : w.Consistent json first) (c : EventStoreCall S A)
    (hc : w.Permitted json c) : (w.after json env c).Consistent json first := by
  cases c with
  | ingest batch now => exact h.ingest batch now
  | updateTriage eventId update now =>
    have hsame := EventStore.sameIds_updateTriage env w.store eventId update now
    rw [after]
    cases (w.store.updateTriage env eventId update now).2 with
    | ok event => exact h.keep (hsame.length_le h.length_le) hsame.nextId
    | error e => exact h
  | bulkUpdateTriage eventIds update now =>
    have hsame := EventStore.sameIds_bulkUpdateTriage env w.store update now eventIds
    exact h.keep (hsame.length_le h.length_le) hsame.nextId
  | applyRetention max => exact h.applyRetention max
  | restart =>
    obtain ⟨saved, hwritten⟩ := h.written
    exact h.restart ((reopened_iff hwritten).mpr hc)

theorem Consistent.idsUnique_iff {first : UInt64} (h : w.Consistent json first) :
    w.IdsUnique ↔ w.issued.length ≤ 2 ^ 64 := by
  rw [IdsUnique, h.issued, nodup_idsFrom_iff, length_idsFrom]

theorem length_issued_ingest (batch : EventBatch S A) (now : Int) :
    (w.after json env (.ingest batch now)).issued.length =
      w.issued.length + batch.events.length := by
  rw [after, List.length_append, map_id_receivedEvents, length_idsFrom]

/-- Only an ingestion gives out ids. -/
theorem issued_after (c : EventStoreCall S A) (hc : ∀ batch now, c ≠ .ingest batch now) :
    (w.after json env c).issued = w.issued := by
  cases c with
  | ingest batch now => exact absurd rfl (hc batch now)
  | updateTriage eventId update now =>
    rw [after]
    cases (w.store.updateTriage env eventId update now).2 <;> rfl
  | bulkUpdateTriage eventIds update now => rfl
  | applyRetention max =>
    rw [after]
    split_ifs <;> rfl
  | restart => rfl

theorem Consistent.idsUnique_after {first : UInt64} (h : w.Consistent json first)
    (hunique : w.IdsUnique) (c : EventStoreCall S A) (hc : w.Permitted json c) :
    (w.after json env c).IdsUnique := by
  cases c with
  | ingest batch now =>
    rw [(h.ingest batch now).idsUnique_iff, length_issued_ingest]
    exact hc
  | _ =>
    rw [IdsUnique, issued_after]
    · exact hunique
    · exact fun _ _ h => nomatch h

theorem Consistent.reopened {first : UInt64} (h : w.Consistent json first)
    (c : EventStoreCall S A) (hc : w.Permitted json c) : w.Reopened json env c := by
  cases c with
  | restart =>
    obtain ⟨saved, hwritten⟩ := h.written
    exact (reopened_iff hwritten).mpr hc
  | _ => trivial

/-- What unique ids and a faithful restart force on a call. -/
theorem Consistent.permitted {first : UInt64} (h : w.Consistent json first)
    (c : EventStoreCall S A) (hunique : (w.after json env c).IdsUnique)
    (hreopened : w.Reopened json env c) : w.Permitted json c := by
  cases c with
  | ingest batch now =>
    rw [(h.ingest batch now).idsUnique_iff, length_issued_ingest] at hunique
    exact hunique
  | restart =>
    obtain ⟨saved, hwritten⟩ := h.written
    exact (reopened_iff hwritten).mp hreopened
  | _ => trivial

theorem consistent_start (maxEvents : Nat) (legacy : Option (EventStoreSnapshot S A))
    (hlegacy : ∀ snapshot ∈ legacy, snapshot.WellFormed json) :
    (start json maxEvents legacy).Consistent json (start json maxEvents legacy).store.nextId := by
  refine ⟨?_, rfl, (UInt64.add_zero _).symm⟩
  cases legacy with
  | none => exact ⟨[], rfl, fun h => absurd rfl h, rfl, .inl List.drop_nil, rfl⟩
  | some snapshot =>
    have hsnapshot := hlegacy snapshot rfl
    exact ⟨snapshot.events, rfl, fun _ => rfl, rfl,
      .inr ⟨hsnapshot.recorded, hsnapshot.small, le_max_right _ _⟩, rfl⟩

/-- Every restart of a run yields the store it found, and no id is given out twice, if and only if
every restart finds what it needs and the ids last. -/
theorem survives_restarts_iff (env : StoreEnv S) (maxEvents : Nat)
    (legacy : Option (EventStoreSnapshot S A))
    (hlegacy : ∀ snapshot ∈ legacy, snapshot.WellFormed json) (cs : List (EventStoreCall S A)) :
    Throughout (EventWorld.after json env) IdsUnique (start json maxEvents legacy) cs ∧
        Along (EventWorld.after json env) (Reopened json env) (start json maxEvents legacy) cs ↔
      Along (EventWorld.after json env) (Permitted json) (start json maxEvents legacy) cs := by
  refine throughout_and_along_iff
    (I := fun w : EventWorld S A P =>
      w.Consistent json (start json maxEvents legacy).store.nextId ∧ w.IdsUnique)
    (fun w c hw hc => ⟨consistent_after hw.1 c hc, hw.1.idsUnique_after hw.2 c hc⟩)
    (fun w hw => hw.2) (fun w c hw hc => hw.1.reopened c hc)
    (fun w c hw hunique hreopened => hw.1.permitted c hunique hreopened)
    ⟨consistent_start maxEvents legacy hlegacy, List.nodup_nil⟩

/-! ## A store emptied by retention -/

/-- Events as their own texts. -/
def plainJson : EventJson Unit Unit (StoredEvent Unit Unit) where
  encode := id
  decode := some
  decode_id _ _ h := congrArg StoredEvent.id (Option.some.inj h).symm

/-- A snapshot of one event. -/
def olderSnapshot : EventStoreSnapshot Unit Unit :=
  ⟨[⟨41, "agent-0", "1970-01-01T00:00:00+00:00", ⟨(), "Elevated", ["legacy"], [], ()⟩, false,
    .default "1970-01-01T00:00:00+00:00"⟩], 42⟩

theorem survives_restarts_iff_migrated :
    Throughout (EventWorld.after plainJson plainEnv) IdsUnique
        (start plainJson 100 (some olderSnapshot))
        [.ingest (batchOf "agent-1" "high_cpu") 0, .restart] ∧
      Along (EventWorld.after plainJson plainEnv) (Reopened plainJson plainEnv)
        (start plainJson 100 (some olderSnapshot))
        [.ingest (batchOf "agent-1" "high_cpu") 0, .restart] := by
  refine (survives_restarts_iff plainEnv 100 (some olderSnapshot) ?_ _).mpr ?_
  · rintro snapshot ⟨⟩
    exact ⟨⟨fun _ _ => rfl, by decide⟩, by decide⟩
  · have hcount : 0 + 1 ≤ 2 ^ 64 := by decide
    exact ⟨hcount, ⟨by decide, fun _ _ => rfl, by decide, by decide⟩, trivial⟩

/-- Retention empties the store, the restart counts from 1 again, and the next event gets an id that
was given out before. -/
def emptiedRun : List (EventStoreCall Unit Unit) :=
  [.ingest (batchOf "agent-1" "high_cpu") 0, .applyRetention 0, .restart,
    .ingest (batchOf "agent-2" "auth_spike") 0]

theorem emptied_store_reuses_id :
    ¬ Throughout (EventWorld.after plainJson plainEnv) IdsUnique (start plainJson 100 none)
        emptiedRun ∧
      ¬ Along (EventWorld.after plainJson plainEnv) (Reopened plainJson plainEnv)
        (start plainJson 100 none) emptiedRun := by
  constructor
  · intro h
    have hids : ([1, 1] : List UInt64).Nodup := h.2.2.2.2
    exact absurd hids (by decide)
  · intro h
    have hcounter : (1 : UInt64) = 2 := h.2.2.1.2
    exact absurd hcounter (by decide)

end EventWorld

end Wardex.Events
