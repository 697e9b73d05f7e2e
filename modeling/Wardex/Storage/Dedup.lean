import Mathlib.Data.List.Sort
import Wardex.Audit.Chain
import Wardex.Lib.KeyMap
import Wardex.Lib.Run
import Wardex.Storage.AuditTable

/-! Alerts that are suppressed as duplicates.  The cache of signatures records an alert before the
table is asked to insert it, and does not learn whether it was. -/

namespace Wardex.Storage

open Wardex.Lib Wardex.Audit

structure StoredAlert where
  id : String
  timestamp : String
  deviceId : String
  level : String
  reasons : List String
  acknowledged : Bool
  assignedTo : Option String
  caseId : Option String
  tenantId : String
deriving DecidableEq

structure DedupEntry where
  alertId : String
  firstSeen : Int
  occurrenceCount : UInt64
deriving DecidableEq

structure AlertDedupCache where
  entries : KeyMap String DedupEntry
  windowSecs : Int
  totalSuppressed : UInt64

/-- What a signature covers: the sorted reasons, joined. -/
def dedupPayload (deviceId level : String) (reasons : List String) : String :=
  deviceId ++ "|" ++ level ++ "|" ++ ",".intercalate (reasons.insertionSort (· ≤ ·))

def StoredAlert.payload (alert : StoredAlert) : String :=
  dedupPayload alert.deviceId alert.level alert.reasons

/-- An alert in the table, with the time at which it was inserted. -/
structure AlertRow where
  alert : StoredAlert
  storedAt : Int
deriving DecidableEq

/-- An alert arrives.  `fault` is an error that the database reports for an insert, whatever the
alert. -/
structure Arrival where
  alert : StoredAlert
  now : Int
  fault : Option String
deriving DecidableEq

section

variable (sha256 : List UInt8 → List UInt8)

def contentHash (deviceId level : String) (reasons : List String) : String :=
  sha256Hex sha256 (asBytes (dedupPayload deviceId level reasons))

namespace AlertDedupCache

def new (windowSecs : Int) : AlertDedupCache := ⟨.empty, windowSecs, 0⟩

/-- The entries that are within the window. -/
def expire (cache : AlertDedupCache) (now : Int) : KeyMap String DedupEntry :=
  fun hash => (cache.entries hash).filter fun e => now - e.firstSeen < cache.windowSecs

def checkAndRecord (cache : AlertDedupCache) (alert : StoredAlert) (now : Int) :
    AlertDedupCache × Option String :=
  let hash := contentHash sha256 alert.deviceId alert.level alert.reasons
  let entries := cache.expire now
  match entries hash with
  | some entry =>
    if now - entry.firstSeen < cache.windowSecs then
      ({ cache with
          entries := entries.insert hash { entry with occurrenceCount := entry.occurrenceCount + 1 }
          totalSuppressed := cache.totalSuppressed + 1 }, some entry.alertId)
    else ({ cache with entries := entries.insert hash ⟨alert.id, now, 1⟩ }, none)
  | none => ({ cache with entries := entries.insert hash ⟨alert.id, now, 1⟩ }, none)

end AlertDedupCache

/-- The identifier is the primary key of the table. -/
def insertAlert (rows : List AlertRow) (arrival : Arrival) : Except StorageError (List AlertRow) :=
  match arrival.fault with
  | some e => .error ⟨.queryFailed, "insert alert failed: " ++ e⟩
  | none =>
    if rows.any fun row => row.alert.id == arrival.alert.id then
      .error ⟨.conflict, "alert " ++ arrival.alert.id ++ " already exists"⟩
    else .ok (rows ++ [⟨arrival.alert, arrival.now⟩])

/-- An insert that was tried, and whether the alert was stored. -/
structure Attempt where
  alert : StoredAlert
  time : Int
  stored : Bool
deriving DecidableEq

/-- The cache and the table, with the time of the last arrival and the inserts tried so far. -/
structure AlertStorage where
  dedup : AlertDedupCache
  rows : List AlertRow
  clock : Int
  attempts : List Attempt

namespace AlertStorage

def start (windowSecs opened : Int) : AlertStorage := ⟨.new windowSecs, [], opened, []⟩

def insertAlertDedup (s : AlertStorage) (arrival : Arrival) :
    AlertStorage × Except StorageError (Option String) :=
  match s.dedup.checkAndRecord sha256 arrival.alert arrival.now with
  | (dedup, some existingId) => ({ s with dedup, clock := arrival.now }, .ok (some existingId))
  | (dedup, none) =>
    match insertAlert s.rows arrival with
    | .ok rows =>
      (⟨dedup, rows, arrival.now, s.attempts ++ [⟨arrival.alert, arrival.now, true⟩]⟩, .ok none)
    | .error e =>
      (⟨dedup, s.rows, arrival.now, s.attempts ++ [⟨arrival.alert, arrival.now, false⟩]⟩, .error e)

def step (s : AlertStorage) (arrival : Arrival) : AlertStorage :=
  (s.insertAlertDedup sha256 arrival).1

end AlertStorage

end

/-- The alerts are of one device and one level, for the same reasons in some order. -/
structure SameContent (a b : StoredAlert) : Prop where
  deviceId : a.deviceId = b.deviceId
  level : a.level = b.level
  reasons : a.reasons.Perm b.reasons

namespace AlertStorage

variable (sha256 : List UInt8 → List UInt8)

def NotEarlier (s : AlertStorage) (arrival : Arrival) : Prop := s.clock ≤ arrival.now

/-- An alert of the same content was stored within the window. -/
def StoredWithin (s : AlertStorage) (arrival : Arrival) (row : AlertRow) : Prop :=
  row ∈ s.rows ∧ SameContent row.alert arrival.alert ∧
    arrival.now - row.storedAt < s.dedup.windowSecs

/-- A suppressed alert is represented in the table, and one that is not is not suppressed. -/
structure Represented (s : AlertStorage) (arrival : Arrival) : Prop where
  suppressed : ∀ id, (s.insertAlertDedup sha256 arrival).2 = .ok (some id) →
    ∃ row, s.StoredWithin arrival row ∧ row.alert.id = id
  tried : (¬ ∃ row, s.StoredWithin arrival row) →
    (s.insertAlertDedup sha256 arrival).1.attempts ≠ s.attempts

/-- Whatever was tried within the window under the text of this alert's signature was stored, and
has the content of this alert. -/
def SoundSignature (s : AlertStorage) (arrival : Arrival) : Prop :=
  ∀ a ∈ s.attempts, a.alert.payload = arrival.alert.payload →
    arrival.now - a.time < s.dedup.windowSecs → a.stored ∧ SameContent a.alert arrival.alert

variable {sha256} {s : AlertStorage} {arrival : Arrival}

def hashOf (sha256 : List UInt8 → List UInt8) (alert : StoredAlert) : String :=
  contentHash sha256 alert.deviceId alert.level alert.reasons

theorem hashOf_eq_iff (hinj : Function.Injective sha256) {a b : StoredAlert} :
    hashOf sha256 a = hashOf sha256 b ↔ a.payload = b.payload :=
  ⟨fun h => asBytes_injective (hinj (hexEncode_injective h)),
    fun h => congrArg (fun text => sha256Hex sha256 (asBytes text)) h⟩

/-- An entry for the signature of the alert that is within the window. -/
def Live (sha256 : List UInt8 → List UInt8) (s : AlertStorage) (arrival : Arrival)
    (e : DedupEntry) : Prop :=
  s.dedup.entries (hashOf sha256 arrival.alert) = some e ∧
    arrival.now - e.firstSeen < s.dedup.windowSecs

/-- An alert is suppressed if its signature is live, and tried otherwise. -/
theorem insertAlertDedup_cases (sha256 : List UInt8 → List UInt8) (s : AlertStorage)
    (arrival : Arrival) :
    (∃ e, s.Live sha256 arrival e ∧
      s.insertAlertDedup sha256 arrival =
        ({ s with
            dedup := { s.dedup with
              entries := KeyMap.insert (s.dedup.expire arrival.now) (hashOf sha256 arrival.alert)
                { e with occurrenceCount := e.occurrenceCount + 1 }
              totalSuppressed := s.dedup.totalSuppressed + 1 }
            clock := arrival.now }, .ok (some e.alertId))) ∨
      (∀ e, ¬ s.Live sha256 arrival e) ∧ ∃ stored result,
        (∀ id, result ≠ .ok (some id)) ∧
        s.insertAlertDedup sha256 arrival =
          (⟨{ s.dedup with
              entries := KeyMap.insert (s.dedup.expire arrival.now) (hashOf sha256 arrival.alert)
                ⟨arrival.alert.id, arrival.now, 1⟩ },
            if stored then s.rows ++ [⟨arrival.alert, arrival.now⟩] else s.rows, arrival.now,
            s.attempts ++ [⟨arrival.alert, arrival.now, stored⟩]⟩, result) := by
  have htried (hnone : s.dedup.expire arrival.now (hashOf sha256 arrival.alert) = none) :
      ∃ stored result, (∀ id, result ≠ .ok (some id)) ∧ s.insertAlertDedup sha256 arrival =
        (⟨{ s.dedup with
            entries := KeyMap.insert (s.dedup.expire arrival.now) (hashOf sha256 arrival.alert)
              ⟨arrival.alert.id, arrival.now, 1⟩ },
          if stored then s.rows ++ [⟨arrival.alert, arrival.now⟩] else s.rows, arrival.now,
          s.attempts ++ [⟨arrival.alert, arrival.now, stored⟩]⟩, result) := by
    unfold hashOf at hnone
    simp only [insertAlertDedup, AlertDedupCache.checkAndRecord, hnone, insertAlert]
    split
    · next rows hrows =>
      refine ⟨true, .ok none, fun _ h => (by cases h), ?_⟩
      split at hrows
      · cases hrows
      · split_ifs at hrows
        obtain rfl := Except.ok.inj hrows
        rfl
    · next e _ => exact ⟨false, .error e, fun _ h => (by cases h), rfl⟩
  cases hentry : s.dedup.entries (hashOf sha256 arrival.alert) with
  | none =>
    have hnone : s.dedup.expire arrival.now (hashOf sha256 arrival.alert) = none := by
      rw [AlertDedupCache.expire, hentry, Option.filter_none]
    exact Or.inr ⟨fun e h => Option.some_ne_none e (h.1.symm.trans hentry), htried hnone⟩
  | some e =>
    by_cases hlive : arrival.now - e.firstSeen < s.dedup.windowSecs
    · refine Or.inl ⟨e, ⟨hentry, hlive⟩, ?_⟩
      have hsome : s.dedup.expire arrival.now (hashOf sha256 arrival.alert) = some e := by
        simp [AlertDedupCache.expire, hentry, hlive]
      unfold hashOf at hsome
      simp only [insertAlertDedup, AlertDedupCache.checkAndRecord, hsome, if_pos hlive, hashOf]
    · have hnone : s.dedup.expire arrival.now (hashOf sha256 arrival.alert) = none := by
        simpa [AlertDedupCache.expire, hentry] using hlive
      refine Or.inr ⟨fun e' h => hlive ?_, htried hnone⟩
      obtain rfl := Option.some.inj (hentry.symm.trans h.1)
      exact h.2

variable (sha256) in
/-- What ties the cache, the table and the inserts tried together. -/
structure Consistent (s : AlertStorage) : Prop where
  attempted : ∀ hash e, s.dedup.entries hash = some e → ∃ a ∈ s.attempts,
    hashOf sha256 a.alert = hash ∧ a.alert.id = e.alertId ∧ a.time = e.firstSeen
  cached : ∀ a ∈ s.attempts, s.clock - a.time < s.dedup.windowSecs → ∃ e,
    s.dedup.entries (hashOf sha256 a.alert) = some e ∧ e.alertId = a.alert.id ∧ e.firstSeen = a.time
  unique : ∀ a ∈ s.attempts, ∀ b ∈ s.attempts, hashOf sha256 a.alert = hashOf sha256 b.alert →
    s.clock - a.time < s.dedup.windowSecs → s.clock - b.time < s.dedup.windowSecs → a = b
  tried : ∀ row ∈ s.rows, (⟨row.alert, row.storedAt, true⟩ : Attempt) ∈ s.attempts
  stored : ∀ a ∈ s.attempts, a.stored → (⟨a.alert, a.time⟩ : AlertRow) ∈ s.rows

theorem consistent_start (windowSecs opened : Int) :
    (start windowSecs opened).Consistent sha256 where
  attempted _ _ h := by cases h
  cached _ h := by cases h
  unique _ h := by cases h
  tried _ h := by cases h
  stored _ h := by cases h

theorem expire_eq_some {cache : AlertDedupCache} {now : Int} {hash : String} {e : DedupEntry} :
    cache.expire now hash = some e ↔
      cache.entries hash = some e ∧ now - e.firstSeen < cache.windowSecs := by
  simp [AlertDedupCache.expire, Option.filter_eq_some_iff]

/-- What was tried within the window has a live entry. -/
theorem Consistent.live (h : s.Consistent sha256) (hnow : s.NotEarlier arrival) {a : Attempt}
    (ha : a ∈ s.attempts) (hwindow : arrival.now - a.time < s.dedup.windowSecs) :
    ∃ e, s.dedup.expire arrival.now (hashOf sha256 a.alert) = some e ∧
      e.alertId = a.alert.id ∧ e.firstSeen = a.time := by
  have hclock : s.clock - a.time < s.dedup.windowSecs := by
    have hle : s.clock ≤ arrival.now := hnow
    omega
  obtain ⟨e, he, hid, hseen⟩ := h.cached a ha hclock
  exact ⟨e, expire_eq_some.mpr ⟨he, by rw [hseen]; exact hwindow⟩, hid, hseen⟩

theorem Consistent.unique_of_window (h : s.Consistent sha256) (hnow : s.NotEarlier arrival)
    {a b : Attempt} (ha : a ∈ s.attempts) (hb : b ∈ s.attempts)
    (hhash : hashOf sha256 a.alert = hashOf sha256 b.alert)
    (hwa : arrival.now - a.time < s.dedup.windowSecs)
    (hwb : arrival.now - b.time < s.dedup.windowSecs) : a = b := by
  have hle : s.clock ≤ arrival.now := hnow
  exact h.unique a ha b hb hhash (by omega) (by omega)

/-- A live signature suppresses the alert, and its entry keeps naming the same attempt. -/
theorem Consistent.suppress (h : s.Consistent sha256) (hnow : s.NotEarlier arrival)
    {e : DedupEntry} (hlive : s.Live sha256 arrival e) (suppressed : UInt64) :
    Consistent sha256
      { s with
        dedup := { s.dedup with
          entries := KeyMap.insert (s.dedup.expire arrival.now) (hashOf sha256 arrival.alert)
            { e with occurrenceCount := e.occurrenceCount + 1 }
          totalSuppressed := suppressed }
        clock := arrival.now } where
  attempted hash e' he' := by
    rcases eq_or_ne hash (hashOf sha256 arrival.alert) with rfl | hne
    · obtain rfl := Option.some.inj ((KeyMap.insert_self _ _ _).symm.trans he')
      exact h.attempted _ e hlive.1
    · have hlive' := expire_eq_some.mp ((KeyMap.insert_of_ne _ hne _).symm.trans he')
      exact h.attempted hash e' hlive'.1
  cached a ha hwindow := by
    obtain ⟨e', he', hid, hseen⟩ := h.live hnow ha hwindow
    rcases eq_or_ne (hashOf sha256 a.alert) (hashOf sha256 arrival.alert) with hhash | hne
    · rw [hhash] at he' ⊢
      obtain rfl := Option.some.inj (hlive.1.symm.trans (expire_eq_some.mp he').1)
      exact ⟨_, KeyMap.insert_self _ _ _, hid, hseen⟩
    · exact ⟨e', (KeyMap.insert_of_ne _ hne _).trans he', hid, hseen⟩
  unique a ha b hb hhash := h.unique_of_window hnow ha hb hhash
  tried := h.tried
  stored := h.stored

/-- Without a live signature the alert is tried, and the cache names this attempt. -/
theorem Consistent.attempt (h : s.Consistent sha256) (hnow : s.NotEarlier arrival)
    (hdead : ∀ e, ¬ s.Live sha256 arrival e) (stored : Bool) :
    Consistent sha256
      ⟨{ s.dedup with
          entries := KeyMap.insert (s.dedup.expire arrival.now) (hashOf sha256 arrival.alert)
            ⟨arrival.alert.id, arrival.now, 1⟩ },
        if stored then s.rows ++ [⟨arrival.alert, arrival.now⟩] else s.rows, arrival.now,
        s.attempts ++ [⟨arrival.alert, arrival.now, stored⟩]⟩ := by
  -- nothing of this signature was tried within the window
  have hnone (a : Attempt) (ha : a ∈ s.attempts)
      (hhash : hashOf sha256 a.alert = hashOf sha256 arrival.alert) :
      ¬ arrival.now - a.time < s.dedup.windowSecs := by
    intro hwindow
    obtain ⟨e, he, -, -⟩ := h.live hnow ha hwindow
    rw [hhash] at he
    exact hdead e (expire_eq_some.mp he)
  refine ⟨fun hash e' he' => ?_, fun a ha hwindow => ?_, fun a ha b hb hhash hwa hwb => ?_,
    fun row hrow => ?_, fun a ha hstored => ?_⟩
  · rcases eq_or_ne hash (hashOf sha256 arrival.alert) with rfl | hne
    · obtain rfl := Option.some.inj ((KeyMap.insert_self _ _ _).symm.trans he')
      exact ⟨_, List.mem_append_right _ (List.mem_singleton_self _), rfl, rfl, rfl⟩
    · have hlive' := expire_eq_some.mp ((KeyMap.insert_of_ne _ hne _).symm.trans he')
      obtain ⟨a, ha, hattempt⟩ := h.attempted hash e' hlive'.1
      exact ⟨a, List.mem_append_left _ ha, hattempt⟩
  · rcases List.mem_append.mp ha with ha | ha
    · obtain ⟨e', he', hid, hseen⟩ := h.live hnow ha hwindow
      have hne : hashOf sha256 a.alert ≠ hashOf sha256 arrival.alert :=
        fun hhash => hnone a ha hhash hwindow
      exact ⟨e', (KeyMap.insert_of_ne _ hne _).trans he', hid, hseen⟩
    · obtain rfl := List.mem_singleton.mp ha
      exact ⟨_, KeyMap.insert_self _ _ _, rfl, rfl⟩
  · rcases List.mem_append.mp ha with ha | ha <;> rcases List.mem_append.mp hb with hb | hb
    · exact h.unique_of_window hnow ha hb hhash hwa hwb
    · obtain rfl := List.mem_singleton.mp hb
      exact absurd hwa (hnone a ha hhash)
    · obtain rfl := List.mem_singleton.mp ha
      exact absurd hwb (hnone b hb hhash.symm)
    · rw [List.mem_singleton.mp ha, List.mem_singleton.mp hb]
  · cases stored with
    | false => exact List.mem_append_left _ (h.tried row hrow)
    | true =>
      rcases List.mem_append.mp hrow with hrow | hrow
      · exact List.mem_append_left _ (h.tried row hrow)
      · obtain rfl := List.mem_singleton.mp hrow
        exact List.mem_append_right _ (List.mem_singleton_self _)
  · rcases List.mem_append.mp ha with ha | ha
    · have hrow := h.stored a ha hstored
      cases stored with
      | false => exact hrow
      | true => exact List.mem_append_left _ hrow
    · obtain rfl := List.mem_singleton.mp ha
      obtain rfl : stored = true := hstored
      exact List.mem_append_right _ (List.mem_singleton_self _)

theorem Consistent.step (h : s.Consistent sha256) (hnow : s.NotEarlier arrival) :
    (s.step sha256 arrival).Consistent sha256 := by
  rcases insertAlertDedup_cases sha256 s arrival with ⟨e, hlive, heq⟩ |
    ⟨hdead, stored, result, -, heq⟩
  · rw [AlertStorage.step, heq]
    exact h.suppress hnow hlive _
  · rw [AlertStorage.step, heq]
    exact h.attempt hnow hdead stored

theorem payload_of_sameContent {a b : StoredAlert} (h : SameContent a b) :
    a.payload = b.payload := by
  have hsorted : a.reasons.insertionSort (· ≤ ·) = b.reasons.insertionSort (· ≤ ·) := by
    apply List.Perm.eq_of_pairwise' (r := (· ≤ ·))
    · exact List.pairwise_insertionSort _ _
    · exact List.pairwise_insertionSort _ _
    · exact (List.perm_insertionSort _ _).trans (h.reasons.trans (List.perm_insertionSort _ _).symm)
  rw [StoredAlert.payload, StoredAlert.payload, dedupPayload, dedupPayload, h.deviceId, h.level,
    hsorted]

/-- An alert is represented exactly if its signature is sound. -/
theorem Consistent.represented_iff (hinj : Function.Injective sha256) (h : s.Consistent sha256)
    (hnow : s.NotEarlier arrival) : s.Represented sha256 arrival ↔ s.SoundSignature arrival := by
  constructor
  · intro hrep a ha hpayload hwindow
    have hhash := (hashOf_eq_iff hinj).mpr hpayload
    obtain ⟨e, he, hid, hseen⟩ := h.live hnow ha hwindow
    rw [hhash] at he
    rcases insertAlertDedup_cases sha256 s arrival with ⟨e', hlive, heq⟩ | ⟨hdead, -⟩
    · obtain ⟨row, ⟨hrow, hsame, hrowWindow⟩, hrowId⟩ :=
        hrep.suppressed e'.alertId (congrArg Prod.snd heq)
      -- the row was tried under the same signature within the window
      have htried := h.tried row hrow
      have hrowHash := (hashOf_eq_iff hinj).mpr (payload_of_sameContent hsame)
      obtain rfl := h.unique_of_window hnow ha htried (hhash.trans hrowHash.symm) hwindow hrowWindow
      exact ⟨rfl, hsame⟩
    · exact absurd (expire_eq_some.mp he) (hdead e)
  · intro hsound
    have hsuppressed (id : String)
        (hid : (s.insertAlertDedup sha256 arrival).2 = .ok (some id)) :
        ∃ row, s.StoredWithin arrival row ∧ row.alert.id = id := by
      rcases insertAlertDedup_cases sha256 s arrival with ⟨e, hlive, heq⟩ | ⟨-, _, _, hresult, heq⟩
      · rw [heq] at hid
        obtain rfl := Option.some.inj (Except.ok.inj hid)
        obtain ⟨a, ha, hhash, haid, hseen⟩ := h.attempted _ e hlive.1
        have hwindow : arrival.now - a.time < s.dedup.windowSecs := by
          rw [hseen]
          exact hlive.2
        obtain ⟨hstored, hsame⟩ := hsound a ha ((hashOf_eq_iff hinj).mp hhash) hwindow
        exact ⟨⟨a.alert, a.time⟩, ⟨h.stored a ha hstored, hsame, hwindow⟩, haid⟩
      · rw [heq] at hid
        exact absurd hid (hresult id)
    refine ⟨hsuppressed, fun hmissing => ?_⟩
    rcases insertAlertDedup_cases sha256 s arrival with ⟨e, -, heq⟩ | ⟨-, _, _, -, heq⟩
    · obtain ⟨row, hrow, -⟩ := hsuppressed e.alertId (congrArg Prod.snd heq)
      exact absurd ⟨row, hrow⟩ hmissing
    · rw [heq]
      exact fun hsame => by simp at hsame

end AlertStorage

open AlertStorage

/-- **When suppressed alerts are represented.**  In a run of arrivals at times that do not decrease,
every alert is represented if and only if every signature is sound. -/
theorem represented_iff_sound {sha256 : List UInt8 → List UInt8} (hinj : Function.Injective sha256)
    (windowSecs opened : Int) (arrivals : List Arrival)
    (hnow : Along (step sha256) NotEarlier (start windowSecs opened) arrivals) :
    Along (step sha256) (Represented sha256) (start windowSecs opened) arrivals ↔
      Along (step sha256) SoundSignature (start windowSecs opened) arrivals := by
  have hboth : Along (step sha256)
      (fun s arrival => s.Represented sha256 arrival ↔ s.SoundSignature arrival)
      (start windowSecs opened) arrivals :=
    along_of_invariant (fun _ _ h hn => Consistent.step h hn)
      (fun _ _ h hn => Consistent.represented_iff hinj h hn)
      (consistent_start windowSecs opened) hnow
  exact ⟨fun h => (h.and hboth).mono fun _ _ hs => hs.2.mp hs.1,
    fun h => (h.and hboth).mono fun _ _ hs => hs.2.mpr hs.1⟩

/-- An alert of a device, under the given identifier. -/
def highAlert (id deviceId : String) : StoredAlert :=
  ⟨id, "2026-01-01T00:00:00Z", deviceId, "High", ["cpu spike", "new process"], false, none, none,
    "default"⟩

theorem represented_twice :
    Along (step id) (Represented id) (start 900 0)
      [⟨highAlert "a-1" "dev-1", 10, none⟩, ⟨highAlert "a-2" "dev-1", 20, none⟩] := by
  refine (represented_iff_sound Function.injective_id 900 0 _
    (by simp only [Along, NotEarlier]; decide)).mpr ⟨?_, ?_, trivial⟩
  · intro a ha
    cases ha
  · intro a ha _ _
    have hfirst : a ∈ [(⟨highAlert "a-1" "dev-1", 10, true⟩ : Attempt)] := ha
    obtain rfl := List.mem_singleton.mp hfirst
    exact ⟨rfl, rfl, rfl, List.Perm.refl _⟩

/-- The insert of the second alert is refused; the third one is suppressed for it, and the alert
under the identifier that is given is of another device. -/
theorem refused_alert_suppresses :
    Function.Injective (id : List UInt8 → List UInt8) ∧
      Along (step id) NotEarlier (start 900 0)
        [⟨highAlert "a-1" "dev-1", 10, none⟩, ⟨highAlert "a-1" "dev-2", 20, none⟩,
          ⟨highAlert "a-2" "dev-2", 30, none⟩] ∧
      ¬ Along (step id) (Represented id) (start 900 0)
        [⟨highAlert "a-1" "dev-1", 10, none⟩, ⟨highAlert "a-1" "dev-2", 20, none⟩,
          ⟨highAlert "a-2" "dev-2", 30, none⟩] := by
  refine ⟨Function.injective_id, by simp only [Along, NotEarlier]; decide, fun h => ?_⟩
  obtain ⟨row, ⟨hrow, hsame, -⟩, -⟩ := h.2.2.1.suppressed "a-1" (by decide)
  have hfirst : row ∈ [(⟨highAlert "a-1" "dev-1", 10⟩ : AlertRow)] := hrow
  obtain rfl := List.mem_singleton.mp hfirst
  exact absurd hsame.deviceId (by decide)

end Wardex.Storage
