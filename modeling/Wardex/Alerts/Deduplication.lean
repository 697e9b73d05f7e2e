import Mathlib.Algebra.BigOperators.Group.List.Basic
import Mathlib.Data.Rat.Floor
import Mathlib.Data.String.Basic
import Wardex.Events.Store
import Wardex.Lib.Bursts
import Wardex.Lib.Offsets
import Wardex.Lib.Windows

/-! Deduplication of alerts: those with one fingerprint are put in the order of their timestamps and
merged into incidents, cut where two neighbours are too far apart and where an incident is full.
Scores are exact rationals, and reading a timestamp is a parameter. -/

namespace Wardex.Alerts

open Wardex.Lib
open Wardex.Events (timestamp)

structure AlertRecord where
  timestamp : String
  hostname : String
  score : ℚ
  level : String
  reasons : List String
deriving DecidableEq

structure DedupIncident where
  incidentId : String
  firstSeen : String
  lastSeen : String
  alertCount : ℕ
  mergedAlertIds : List ℕ
  deviceIds : List String
  level : String
  representativeReasons : List String
  avgScore : ℚ
  maxScore : ℚ
  fingerprint : String
deriving DecidableEq

structure DedupConfig where
  windowSecs : UInt64
  crossDevice : Bool
  maxMerge : ℕ

def DedupConfig.default : DedupConfig where
  windowSecs := 300
  crossDevice := false
  maxMerge := 100

/-- An alert and its index. -/
abbrev Member := AlertRecord × ℕ

/-! ### Fingerprints -/

/-- What stands before the first occurrence of a pattern, or all of it. -/
def truncateAt (pat reason : String) : String :=
  match splitFirst pat.toList reason.toList with
  | some (before, _) => String.ofList before
  | none => reason

/-- The reasons without their numeric suffixes, sorted. -/
def AlertRecord.normalisedReasons (alert : AlertRecord) : List String :=
  (alert.reasons.map fun r => truncateAt " (-" (truncateAt " (+" r)).insertionSort (· ≤ ·)

def reasonFingerprint (alert : AlertRecord) : String :=
  alert.level ++ ":" ++ "|".intercalate alert.normalisedReasons

def DedupConfig.key (config : DedupConfig) (alert : AlertRecord) : String :=
  if config.crossDevice then reasonFingerprint alert
  else reasonFingerprint alert ++ "@" ++ alert.hostname

/-! ### Incidents -/

def highestLevel (levels : List String) : String :=
  if "Critical" ∈ levels then "Critical" else if "Severe" ∈ levels then "Severe" else "Elevated"

/-- Rounding to the nearest integer, halves away from zero. -/
def roundAway (q : ℚ) : ℤ := if 0 ≤ q then ⌊q + 1 / 2⌋ else ⌈q - 1 / 2⌉

def roundHundredths (q : ℚ) : ℚ := roundAway (q * 100) / 100

def incidentIdOf (id : ℕ) : String :=
  "INC-" ++ String.ofList ((toString id).toList.leftpad 4 '0')

def buildIncident (id : ℕ) (fp : String) (members : List Member) : DedupIncident :=
  let alerts := members.map Prod.fst
  let scores := alerts.map AlertRecord.score
  { incidentId := incidentIdOf id
    firstSeen := alerts.head?.elim "" AlertRecord.timestamp
    lastSeen := alerts.getLast?.elim "" AlertRecord.timestamp
    alertCount := members.length
    mergedAlertIds := members.map Prod.snd
    deviceIds := sortedKeys (alerts.map AlertRecord.hostname)
    level := highestLevel (alerts.map AlertRecord.level)
    representativeReasons := alerts.head?.elim [] AlertRecord.reasons
    avgScore := roundHundredths (scores.sum / max scores.length 1)
    maxScore := roundHundredths (scores.foldl max 0)
    fingerprint := fp }

/-! ### Merging -/

/-- The greatest floating-point number, the gap to a timestamp that is not read. -/
def f64Max : ℕ := 2 ^ 1024 - 2 ^ 971

variable (parse : String → Option ℤ)

/-- The whole seconds between two timestamps. -/
def timestampGap (a b : String) : ℕ :=
  match parse a, parse b with
  | some ta, some tb => (timestamp tb - timestamp ta).natAbs
  | _, _ => f64Max

/-- The incidents built so far, and the open window. -/
structure Merging where
  incidents : List DedupIncident
  incidentCounter : ℕ
  window : List Member

def Merging.flush (fp : String) (m : Merging) : Merging where
  incidents := m.incidents ++ [buildIncident m.incidentCounter fp m.window]
  incidentCounter := m.incidentCounter + 1
  window := []

def Merging.push (member : Member) (m : Merging) : Merging :=
  { m with window := m.window ++ [member] }

def Merging.add (config : DedupConfig) (fp : String) (m : Merging) (member : Member) : Merging :=
  match m.window.getLast? with
  | some last =>
    let gap := timestampGap parse last.1.timestamp member.1.timestamp
    if gap > config.windowSecs.toNat ∨ m.window.length ≥ config.maxMerge then
      (m.flush fp).push member
    else m.push member
  | none => m.push member

def Merging.finish (fp : String) (m : Merging) : Merging :=
  if m.window.isEmpty then m else m.flush fp

/-- The members of a bucket in the order of the texts of their timestamps. -/
def inTextOrder (members : List Member) : List Member :=
  members.insertionSort (Rising fun member => member.1.timestamp)

def Merging.addBucket (config : DedupConfig) (m : Merging) (bucket : String × List Member) :
    Merging :=
  ((inTextOrder bucket.2).foldl (Merging.add parse config bucket.1) { m with window := [] }).finish
    bucket.1

def keyed (config : DedupConfig) (alerts : List AlertRecord) : List (String × Member) :=
  alerts.zipIdx.map fun member => (config.key member.1, member)

/-- The incidents, most recent first by the text of their last timestamp. -/
def deduplicateAlerts (order : IterationOrder String) (alerts : List AlertRecord)
    (config : DedupConfig) : List DedupIncident :=
  if alerts.isEmpty then []
  else
    ((groups order (keyed config alerts)).foldl (Merging.addBucket parse config)
      ⟨[], 0, []⟩).incidents.insertionSort
        (Rising fun incident => OrderDual.toDual incident.lastSeen)

/-! ### What incidents are made of -/

variable {parse}

/-- The alert is merged into the open window, not into one after it. -/
def near (parse : String → Option ℤ) (config : DedupConfig) (x y : Member) : Bool :=
  timestampGap parse x.1.timestamp y.1.timestamp ≤ config.windowSecs.toNat

/-- The incident is built from the piece. -/
def BuiltFrom (piece : List Member) (incident : DedupIncident) : Prop :=
  ∃ id fp, incident = buildIncident id fp piece

variable {config : DedupConfig} {order : IterationOrder String} {alerts : List AlertRecord}
  {fp : String} {m : Merging}

theorem add_eq (m : Merging) (member : Member) :
    Merging.add parse config fp m member =
      if closes (near parse config) config.maxMerge m.window member then (m.flush fp).push member
      else m.push member := by
  rw [Merging.add, closes]
  cases m.window.getLast? with
  | none => rfl
  | some last =>
    dsimp only
    congr 1
    rw [near, Bool.or_eq_true, Bool.not_eq_true', decide_eq_true_eq, decide_eq_false_iff_not,
      not_le, gt_iff_lt, ge_iff_le]

variable (parse config fp) in
/-- The loop over a bucket builds an incident from each piece into which the bucket is cut. -/
theorem exists_incidents_foldl (members : List Member) (m : Merging) :
    ∃ found, (((members.foldl (Merging.add parse config fp) m).finish fp).incidents =
        m.incidents ++ found) ∧
      List.Forall₂ BuiltFrom
        (cutFrom (near parse config) config.maxMerge m.window members) found := by
  induction members generalizing m with
  | nil =>
    rw [List.foldl_nil, Merging.finish, cutFrom]
    split_ifs
    · exact ⟨[], (List.append_nil _).symm, .nil⟩
    · exact ⟨_, rfl, .cons ⟨_, _, rfl⟩ .nil⟩
  | cons member members ih =>
    rw [List.foldl_cons, add_eq, cutFrom]
    split_ifs
    · obtain ⟨found, hfound, hbuilt⟩ := ih ((m.flush fp).push member)
      refine ⟨buildIncident m.incidentCounter fp m.window :: found, ?_, ?_⟩
      · rw [hfound, Merging.push, Merging.flush, List.append_assoc]
        rfl
      · exact .cons ⟨_, _, rfl⟩ hbuilt
    · exact ih (m.push member)

variable (parse config) in
theorem exists_incidents_addBucket (buckets : List (String × List Member)) (m : Merging) :
    ∃ found, ((buckets.foldl (Merging.addBucket parse config) m).incidents =
        m.incidents ++ found) ∧
      List.Forall₂ BuiltFrom (buckets.flatMap fun bucket =>
        cut (near parse config) config.maxMerge (inTextOrder bucket.2)) found := by
  induction buckets generalizing m with
  | nil => exact ⟨[], (List.append_nil _).symm, .nil⟩
  | cons bucket buckets ih =>
    obtain ⟨first, hfirst, hcut⟩ := exists_incidents_foldl parse config bucket.1
      (inTextOrder bucket.2) { m with window := [] }
    obtain ⟨rest, hrest, hbuilt⟩ := ih (Merging.addBucket parse config m bucket)
    refine ⟨first ++ rest, ?_, List.rel_append hcut hbuilt⟩
    rw [List.foldl_cons, hrest, Merging.addBucket, hfirst, List.append_assoc]

/-- All pieces. -/
def pieces (parse : String → Option ℤ) (config : DedupConfig) (order : IterationOrder String)
    (alerts : List AlertRecord) : List (List Member) :=
  (groups order (keyed config alerts)).flatMap fun bucket =>
    cut (near parse config) config.maxMerge (inTextOrder bucket.2)

theorem exists_incidents (parse : String → Option ℤ) (config : DedupConfig)
    (order : IterationOrder String) (alerts : List AlertRecord) :
    ∃ found, (deduplicateAlerts parse order alerts config).Perm found ∧
      List.Forall₂ BuiltFrom (pieces parse config order alerts) found := by
  rw [deduplicateAlerts]
  split_ifs with hempty
  · obtain rfl := List.isEmpty_iff.mp hempty
    have hnone : groups order (keyed config []) = [] := by
      rw [groups, List.map_eq_nil_iff]
      exact List.perm_nil.mp (order.perm _)
    refine ⟨[], .refl _, ?_⟩
    rw [pieces, hnone]
    exact .nil
  · obtain ⟨found, hfound, hbuilt⟩ := exists_incidents_addBucket parse config
      (groups order (keyed config alerts)) ⟨[], 0, []⟩
    exact ⟨found, (List.perm_insertionSort _ _).trans (.of_eq hfound), hbuilt⟩

variable (parse config order alerts) in
theorem flatten_pieces_perm : (pieces parse config order alerts).flatten.Perm alerts.zipIdx := by
  have hbuckets (bucket : String × List Member) :
      (cut (near parse config) config.maxMerge (inTextOrder bucket.2)).flatten.Perm bucket.2 := by
    rw [flatten_cut]
    exact List.perm_insertionSort _ _
  have hgroups := flatMap_groups_perm order (fun member : Member => config.key member.1)
    alerts.zipIdx
  refine List.Perm.trans ?_ hgroups
  rw [pieces, List.flatten_eq_flatMap, List.flatMap_assoc]
  refine List.Perm.flatMap_left _ fun bucket _ => ?_
  rw [← List.flatten_eq_flatMap]
  exact hbuckets bucket

/-! ### Incidents that fit together -/

/-- The instant of an alert whose timestamp is read, in nanoseconds. -/
def instant (parse : String → Option ℤ) (a : AlertRecord) : ℤ := (parse a.timestamp).getD 0

structure SameKey (config : DedupConfig) (a b : AlertRecord) : Prop where
  reasons : a.normalisedReasons = b.normalisedReasons
  level : a.level = b.level
  hostname : config.crossDevice = false → a.hostname = b.hostname

/-- The second alert is not earlier than the first, and within the window after it. -/
def WithinWindow (parse : String → Option ℤ) (config : DedupConfig) (a b : AlertRecord) : Prop :=
  instant parse a ≤ instant parse b ∧
    instant parse b ≤ instant parse a + config.windowSecs.toNat * 1000000000

/-- Two alerts with one key within the window, with none of that key between them. -/
structure Adjacent (parse : String → Option ℤ) (config : DedupConfig) (alerts : List AlertRecord)
    (a b : AlertRecord) : Prop where
  same : SameKey config a b
  within : WithinWindow parse config a b
  between : ∀ c ∈ alerts, SameKey config a c →
    ¬ (instant parse a < instant parse c ∧ instant parse c < instant parse b)

def DedupIncident.merged (alerts : List AlertRecord) (incident : DedupIncident) :
    List AlertRecord :=
  incident.mergedAlertIds.filterMap fun i => alerts[i]?

def DedupIncident.Full (config : DedupConfig) (incident : DedupIncident) : Prop :=
  incident.mergedAlertIds.length = config.maxMerge

structure DedupIncident.Sound (parse : String → Option ℤ) (config : DedupConfig)
    (alerts : List AlertRecord) (incident : DedupIncident) : Prop where
  same : ∀ a ∈ incident.merged alerts, ∀ b ∈ incident.merged alerts, SameKey config a b
  size : incident.mergedAlertIds.length ≤ config.maxMerge
  chronological : (incident.merged alerts).IsChain (WithinWindow parse config)
  firstSeen : ∃ a ∈ incident.merged alerts, a.timestamp = incident.firstSeen ∧
    ∀ b ∈ incident.merged alerts, instant parse a ≤ instant parse b
  lastSeen : ∃ a ∈ incident.merged alerts, a.timestamp = incident.lastSeen ∧
    ∀ b ∈ incident.merged alerts, instant parse b ≤ instant parse a

structure Partitions (parse : String → Option ℤ) (config : DedupConfig)
    (alerts : List AlertRecord) (incidents : List DedupIncident) : Prop where
  once : (incidents.flatMap DedupIncident.mergedAlertIds).Perm (List.range alerts.length)
  sound : ∀ incident ∈ incidents, incident.Sound parse config alerts
  /-- Of two adjacent alerts in different incidents, the incident of one that is not later than
  the other is full. -/
  separated : ∀ incident ∈ incidents, ∀ i ∈ incident.mergedAlertIds, ∀ j a b,
    alerts[i]? = some a → alerts[j]? = some b → Adjacent parse config alerts a b →
      j ∈ incident.mergedAlertIds ∨ incident.Full config ∨
        instant parse a = instant parse b ∧
          ∃ other ∈ incidents, j ∈ other.mergedAlertIds ∧ other.Full config

/-! ### Bursts of one fingerprint -/

/-- The alerts of one fingerprint in the order of the texts of their timestamps, cut where two
neighbours are more than the window apart. -/
def bursts (parse : String → Option ℤ) (config : DedupConfig) (alerts : List AlertRecord)
    (key : String) : List (List Member) :=
  (inTextOrder (alerts.zipIdx.filter fun member => config.key member.1 = key)).splitBy
    (near parse config)

/-- The burst is long enough to fill the share in which the position is. -/
def Filled (config : DedupConfig) (burst : List Member) (i : ℕ) : Prop :=
  (i / config.maxMerge + 1) * config.maxMerge ≤ burst.length

/-- The texts of the timestamps order the alerts of one fingerprint as their instants do, wherever
that decides what is merged. -/
structure TextOrderFits (parse : String → Option ℤ) (config : DedupConfig)
    (alerts : List AlertRecord) : Prop where
  neighbours : ∀ key, ∀ burst ∈ bursts parse config alerts key, ∀ i x y, burst[i]? = some x →
    burst[i + 1]? = some y → (i + 1) % config.maxMerge ≠ 0 →
      SameKey config x.1 y.1 ∧ WithinWindow parse config x.1 y.1
  separated : ∀ key, ∀ burst ∈ bursts parse config alerts key, ∀ i x, burst[i]? = some x →
    ∀ y ∈ alerts.zipIdx, Adjacent parse config alerts x.1 y.1 →
      (∃ n, burst[n]? = some y ∧ n / config.maxMerge = i / config.maxMerge) ∨
        Filled config burst i ∨
        instant parse x.1 = instant parse y.1 ∧
          ∃ other ∈ bursts parse config alerts (config.key y.1), ∃ n, other[n]? = some y ∧
            Filled config other n

/-! ### Pieces and bursts -/

theorem mem_zipIdx_of_burst {key : String} {burst : List Member} {x : Member}
    (hburst : burst ∈ bursts parse config alerts key) (hx : x ∈ burst) :
    x ∈ alerts.zipIdx ∧ config.key x.1 = key := by
  have hmem : x ∈ inTextOrder (alerts.zipIdx.filter fun member => config.key member.1 = key) := by
    rw [← List.flatten_splitBy (near parse config) (inTextOrder _)]
    exact List.mem_flatten_of_mem hburst hx
  rw [inTextOrder, List.mem_insertionSort, List.mem_filter, decide_eq_true_eq] at hmem
  exact hmem

theorem mem_pieces (hmost : 0 < config.maxMerge) {piece : List Member} :
    piece ∈ pieces parse config order alerts ↔
      ∃ key, ∃ burst ∈ bursts parse config alerts key, IsShare config.maxMerge burst piece := by
  have hbucket (key : String) : valuesAt (keyed config alerts) key =
      alerts.zipIdx.filter fun member => config.key member.1 = key :=
    valuesAt_map (fun member : Member => config.key member.1) alerts.zipIdx key
  rw [pieces, List.mem_flatMap]
  constructor
  · rintro ⟨⟨key, bucket⟩, hgroup, hpiece⟩
    obtain ⟨-, rfl⟩ := mem_groups.mp hgroup
    rw [mem_cut hmost, hbucket] at hpiece
    exact ⟨key, hpiece⟩
  · rintro ⟨key, burst, hburst, hshare⟩
    refine ⟨(key, valuesAt (keyed config alerts) key), mem_groups.mpr ⟨?_, rfl⟩, ?_⟩
    · obtain ⟨x, hx⟩ := List.exists_mem_of_ne_nil burst (List.ne_nil_of_mem_splitBy hburst)
      obtain ⟨hmem, hkey⟩ := mem_zipIdx_of_burst hburst hx
      rw [keyed, List.map_map]
      exact List.mem_map.mpr ⟨x, hmem, hkey⟩
    · rw [mem_cut hmost, hbucket]
      exact ⟨burst, hburst, hshare⟩

theorem subset_of_share {key : String} {burst : List Member} {k : ℕ}
    (hburst : burst ∈ bursts parse config alerts key) :
    share config.maxMerge burst k ⊆ alerts.zipIdx := fun _ hx =>
  (mem_zipIdx_of_burst hburst (List.mem_of_mem_drop (List.mem_of_mem_take hx))).1

theorem share_of_incident (hmost : 0 < config.maxMerge) {incident : DedupIncident}
    (hincident : incident ∈ deduplicateAlerts parse order alerts config) :
    ∃ key, ∃ burst ∈ bursts parse config alerts key, ∃ k, k * config.maxMerge < burst.length ∧
      BuiltFrom (share config.maxMerge burst k) incident := by
  obtain ⟨found, hperm, hbuilt⟩ := exists_incidents parse config order alerts
  obtain ⟨piece, hpiece, hfrom⟩ := exists_of_forall₂_right hbuilt (hperm.mem_iff.mp hincident)
  obtain ⟨key, burst, hburst, k, hk, rfl⟩ := (mem_pieces hmost).mp hpiece
  exact ⟨key, burst, hburst, k, hk, hfrom⟩

theorem incident_of_share (hmost : 0 < config.maxMerge) {key : String} {burst : List Member}
    {k : ℕ} (hburst : burst ∈ bursts parse config alerts key)
    (hk : k * config.maxMerge < burst.length) :
    ∃ incident ∈ deduplicateAlerts parse order alerts config,
      BuiltFrom (share config.maxMerge burst k) incident := by
  obtain ⟨found, hperm, hbuilt⟩ := exists_incidents parse config order alerts
  obtain ⟨incident, hincident, hfrom⟩ :=
    exists_of_forall₂ hbuilt ((mem_pieces hmost).mpr ⟨key, burst, hburst, k, hk, rfl⟩)
  exact ⟨incident, hperm.mem_iff.mpr hincident, hfrom⟩

theorem start_lt_length {burst : List Member} {i : ℕ} {x : Member} (hx : burst[i]? = some x) :
    i / config.maxMerge * config.maxMerge < burst.length :=
  Nat.lt_of_le_of_lt (Nat.div_mul_le_self _ _) (List.getElem?_eq_some_iff.mp hx).1

/-! ### One incident -/

section

variable {piece : List Member} {incident : DedupIncident} {a b c : AlertRecord}

theorem merged_eq (h : BuiltFrom piece incident) (hsub : piece ⊆ alerts.zipIdx) :
    incident.merged alerts = piece.map Prod.fst := by
  obtain ⟨id, fp, rfl⟩ := h
  rw [DedupIncident.merged, buildIncident, List.filterMap_map, ← List.filterMap_eq_map]
  exact List.filterMap_congr fun x hx => List.mem_zipIdx_iff_getElem?.mp (hsub hx)

theorem mem_mergedAlertIds (h : BuiltFrom piece incident) (hsub : piece ⊆ alerts.zipIdx)
    {y : Member} (hy : y ∈ alerts.zipIdx) : y.2 ∈ incident.mergedAlertIds ↔ y ∈ piece := by
  obtain ⟨id, fp, rfl⟩ := h
  refine List.mem_map.trans ⟨?_, fun hmem => ⟨y, hmem, rfl⟩⟩
  rintro ⟨x, hx, heq⟩
  have hxa := List.mem_zipIdx_iff_getElem?.mp (hsub hx)
  have hya := List.mem_zipIdx_iff_getElem?.mp hy
  rw [heq, hya] at hxa
  obtain rfl : y = x := Prod.ext (Option.some.inj hxa) heq.symm
  exact hx

theorem full_iff (h : BuiltFrom piece incident) :
    incident.Full config ↔ piece.length = config.maxMerge := by
  obtain ⟨id, fp, rfl⟩ := h
  rw [DedupIncident.Full, buildIncident, List.length_map]

theorem SameKey.symm (h : SameKey config a b) : SameKey config b a :=
  ⟨h.reasons.symm, h.level.symm, fun hc => (h.hostname hc).symm⟩

instance : Std.Symm (SameKey config) := ⟨fun _ _ h => h.symm⟩

theorem SameKey.trans (h : SameKey config a b) (h' : SameKey config b c) : SameKey config a c :=
  ⟨h.reasons.trans h'.reasons, h.level.trans h'.level,
    fun hc => (h.hostname hc).trans (h'.hostname hc)⟩

theorem SameKey.key_eq (h : SameKey config a b) : config.key a = config.key b := by
  have hfingerprint : reasonFingerprint a = reasonFingerprint b := by
    rw [reasonFingerprint, reasonFingerprint, h.reasons, h.level]
  rw [DedupConfig.key, DedupConfig.key, hfingerprint]
  split_ifs with hcross
  · rfl
  · rw [h.hostname (Bool.eq_false_iff.mpr hcross)]

/-- The second alert has the key of the first and is not earlier. -/
def Later (parse : String → Option ℤ) (config : DedupConfig) (a b : AlertRecord) : Prop :=
  SameKey config a b ∧ instant parse a ≤ instant parse b

instance : IsTrans AlertRecord (Later parse config) :=
  ⟨fun _ _ _ h h' => ⟨h.1.trans h'.1, h.2.trans h'.2⟩⟩

/-- In a chain of alerts the first is the earliest and the last the latest, all with one key. -/
theorem Later.of_isChain {l : List AlertRecord} (h : l.IsChain (Later parse config)) :
    (∀ a ∈ l, ∀ b ∈ l, SameKey config a b) ∧
      (∀ a ∈ l.head?, ∀ b ∈ l, instant parse a ≤ instant parse b) ∧
        ∀ a ∈ l.getLast?, ∀ b ∈ l, instant parse b ≤ instant parse a := by
  have hpairs := List.isChain_iff_pairwise.mp h
  refine ⟨?_, fun a ha b hb => ?_, fun a ha b hb => ?_⟩
  · have hsame : l.Pairwise (SameKey config) := hpairs.imp And.left
    exact hsame.forall_of_forall fun a _ => ⟨rfl, rfl, fun _ => rfl⟩
  · obtain ⟨rest, rfl⟩ := List.head?_eq_some_iff.mp ha
    obtain rfl | hrest := List.mem_cons.mp hb
    · exact le_rfl
    · exact ((List.pairwise_cons.mp hpairs).1 b hrest).2
  · obtain ⟨start, rfl⟩ := List.getLast?_eq_some_iff.mp ha
    obtain hstart | hlast := List.mem_append.mp hb
    · exact ((List.pairwise_append.mp hpairs).2.2 b hstart a (List.mem_singleton_self a)).2
    · obtain rfl := List.mem_singleton.mp hlast
      exact le_rfl

theorem sound_iff (h : BuiltFrom piece incident) (hsub : piece ⊆ alerts.zipIdx)
    (hne : piece ≠ []) (hle : piece.length ≤ config.maxMerge) :
    incident.Sound parse config alerts ↔
      piece.IsChain fun x y => SameKey config x.1 y.1 ∧ WithinWindow parse config x.1 y.1 := by
  have hmerged := merged_eq h hsub
  have hmap : (piece.IsChain fun x y =>
      SameKey config x.1 y.1 ∧ WithinWindow parse config x.1 y.1) ↔
      (piece.map Prod.fst).IsChain fun a b =>
        SameKey config a b ∧ WithinWindow parse config a b := by
    rw [List.isChain_map]
  rw [hmap]
  constructor
  · intro hsound
    have hsame := hsound.same
    have hchain := hsound.chronological
    rw [hmerged] at hsame hchain
    rw [List.isChain_iff_getElem] at hchain ⊢
    exact fun i hi => ⟨hsame _ (List.getElem_mem _) _ (List.getElem_mem _), hchain i hi⟩
  · intro hchain
    have hne' : piece.map Prod.fst ≠ [] := List.map_eq_nil_iff.not.mpr hne
    obtain ⟨hsame, hfirst, hlast⟩ := Later.of_isChain (hchain.imp fun _ _ h => ⟨h.1, h.2.1⟩)
    have hhead := List.head?_eq_some_head hne'
    have hend := List.getLast?_eq_some_getLast hne'
    obtain ⟨id, fp, rfl⟩ := h
    refine ⟨?_, ?_, ?_, ?_, ?_⟩ <;> try rw [hmerged]
    · exact hsame
    · rwa [buildIncident, List.length_map]
    · exact hchain.imp fun _ _ h => h.2
    · refine ⟨_, List.head_mem hne', ?_, hfirst _ hhead⟩
      rw [buildIncident]
      dsimp only
      rw [hhead]
      rfl
    · refine ⟨_, List.getLast_mem hne', ?_, hlast _ hend⟩
      rw [buildIncident]
      dsimp only
      rw [hend]
      rfl

end

/-! ### Timestamps of one form -/

section

variable {a b : AlertRecord} {x y : Member} {key : String}

/-- An alert whose timestamp is read and is of whole seconds. -/
def Whole (parse : String → Option ℤ) (a : AlertRecord) : Prop :=
  ∃ secs, parse a.timestamp = some (secs * 1000000000)

theorem near_of_whole (hx : Whole parse x.1) (hy : Whole parse y.1)
    (hle : instant parse x.1 ≤ instant parse y.1) :
    near parse config x y = true ↔ WithinWindow parse config x.1 y.1 := by
  obtain ⟨s, hs⟩ := hx
  obtain ⟨t, ht⟩ := hy
  rw [instant, instant, hs, ht, Option.getD_some, Option.getD_some] at hle
  rw [near, decide_eq_true_eq, timestampGap, WithinWindow, instant, instant, hs, ht]
  dsimp only [Option.getD_some]
  rw [timestamp, timestamp, Int.mul_ediv_cancel _ (by decide), Int.mul_ediv_cancel _ (by decide)]
  omega

/-- Alerts whose timestamps are of whole seconds and of one form, so that their texts are in the
order of their instants, and whose fingerprints tell their keys apart. -/
structure Uniform (parse : String → Option ℤ) (config : DedupConfig) (alerts : List AlertRecord) :
    Prop where
  whole : ∀ a ∈ alerts, Whole parse a
  instants : ∀ a ∈ alerts, ∀ b ∈ alerts, a.timestamp ≤ b.timestamp →
    instant parse a ≤ instant parse b
  keys : ∀ a ∈ alerts, ∀ b ∈ alerts, config.key a = config.key b → SameKey config a b

theorem mem_of_mem_inTextOrder
    (h : x ∈ inTextOrder (alerts.zipIdx.filter fun member => config.key member.1 = key)) :
    x.1 ∈ alerts ∧ config.key x.1 = key := by
  rw [inTextOrder, List.mem_insertionSort, List.mem_filter, decide_eq_true_eq] at h
  exact ⟨List.fst_mem_of_mem_zipIdx h.1, h.2⟩

variable (key) in
theorem Uniform.pairwise (h : Uniform parse config alerts) :
    (inTextOrder (alerts.zipIdx.filter fun member => config.key member.1 = key)).Pairwise
      (Rising fun member => instant parse member.1) := by
  refine (pairwise_sorted (fun member : Member => member.1.timestamp) _).imp_of_mem ?_
  intro x y hx hy hle
  exact h.instants x.1 (mem_of_mem_inTextOrder hx).1 y.1 (mem_of_mem_inTextOrder hy).1 hle

theorem Uniform.pairwise_burst (h : Uniform parse config alerts) {burst : List Member}
    (hburst : burst ∈ bursts parse config alerts key) :
    burst.Pairwise (Rising fun member => instant parse member.1) := by
  have hall := h.pairwise key
  rw [← List.flatten_splitBy (near parse config) (inTextOrder _)] at hall
  exact (List.pairwise_flatten.mp hall).1 burst hburst

theorem Uniform.neighbours (h : Uniform parse config alerts) {burst : List Member}
    (hburst : burst ∈ bursts parse config alerts key) {i : ℕ} (hx : burst[i]? = some x)
    (hy : burst[i + 1]? = some y) :
    SameKey config x.1 y.1 ∧ WithinWindow parse config x.1 y.1 := by
  obtain ⟨hxmem, hxkey⟩ := mem_zipIdx_of_burst hburst (List.mem_of_getElem? hx)
  obtain ⟨hymem, hykey⟩ := mem_zipIdx_of_burst hburst (List.mem_of_getElem? hy)
  have hxa := List.fst_mem_of_mem_zipIdx hxmem
  have hya := List.fst_mem_of_mem_zipIdx hymem
  obtain ⟨hi, rfl⟩ := List.getElem?_eq_some_iff.mp hx
  obtain ⟨hi', rfl⟩ := List.getElem?_eq_some_iff.mp hy
  have hle : instant parse burst[i].1 ≤ instant parse burst[i + 1].1 :=
    List.pairwise_iff_getElem.mp (h.pairwise_burst hburst) i (i + 1) hi hi' (Nat.lt_succ_self i)
  have hnear := List.isChain_iff_getElem.mp (List.isChain_of_mem_splitBy hburst) i hi'
  exact ⟨h.keys _ hxa _ hya (hxkey.trans hykey.symm),
    (near_of_whole (h.whole _ hxa) (h.whole _ hya) hle).mp hnear⟩

/-- A burst holds all alerts of its key within the window after one of its alerts. -/
theorem Uniform.mem_burst (h : Uniform parse config alerts) {burst : List Member}
    (hburst : burst ∈ bursts parse config alerts key) (hx : x ∈ burst) (hy : y ∈ alerts.zipIdx)
    (hsame : SameKey config x.1 y.1) (hwithin : WithinWindow parse config x.1 y.1) :
    y ∈ burst := by
  obtain ⟨-, hkey⟩ := mem_zipIdx_of_burst hburst hx
  have hymem : y ∈ inTextOrder (alerts.zipIdx.filter fun member => config.key member.1 = key) := by
    rw [inTextOrder, List.mem_insertionSort, List.mem_filter, decide_eq_true_eq]
    exact ⟨hy, hsame.key_eq.symm.trans hkey⟩
  have : Std.Refl (Rising fun member : Member => instant parse member.1) := ⟨fun _ => le_rfl⟩
  refine Lib.mem_burst (h.pairwise key) hburst hx hymem fun e he f hf hef hbetween => ?_
  refine (near_of_whole (h.whole _ (mem_of_mem_inTextOrder he).1)
    (h.whole _ (mem_of_mem_inTextOrder hf).1) hef).mpr ⟨hef, ?_⟩
  obtain ⟨hstart, hend⟩ := hwithin
  rw [Rising, Rising, Rising, Rising] at hbetween
  omega

/-- Alerts of one form fit, whatever the window and the size of incidents are. -/
theorem Uniform.textOrderFits (h : Uniform parse config alerts) (hmost : 0 < config.maxMerge) :
    TextOrderFits parse config alerts := by
  refine ⟨fun key burst hburst i x y hx hy _ => h.neighbours hburst hx hy, ?_⟩
  intro key burst hburst i x hx y hy hadjacent
  have hmem := h.mem_burst hburst (List.mem_of_getElem? hx) hy hadjacent.same hadjacent.within
  obtain ⟨n, hn⟩ := List.mem_iff_getElem?.mp hmem
  by_cases hfilled : Filled config burst i
  · exact .inr (.inl hfilled)
  by_cases hshare : n / config.maxMerge = i / config.maxMerge
  · exact .inl ⟨n, hn, hshare⟩
  obtain ⟨hi, rfl⟩ := List.getElem?_eq_some_iff.mp hx
  obtain ⟨hn', rfl⟩ := List.getElem?_eq_some_iff.mp hn
  -- What follows the share of the first alert is in it, so the second stands before it.
  have hlt : n / config.maxMerge < i / config.maxMerge := by
    refine Nat.lt_of_le_of_ne (Nat.le_of_lt_succ ?_) hshare
    refine (Nat.div_lt_iff_lt_mul hmost).mpr (hn'.trans ?_)
    exact not_le.mp hfilled
  have hbefore : n < i := by
    by_contra hle
    exact hlt.not_ge (Nat.div_le_div_right (not_lt.mp hle))
  have hle : instant parse burst[n].1 ≤ instant parse burst[i].1 :=
    List.pairwise_iff_getElem.mp (h.pairwise_burst hburst) n i hn' hi hbefore
  have hkey := (mem_zipIdx_of_burst hburst hmem).2
  refine .inr (.inr ⟨hadjacent.within.1.antisymm hle, burst, hkey.symm ▸ hburst, n, hn, ?_⟩)
  calc (n / config.maxMerge + 1) * config.maxMerge
      ≤ i / config.maxMerge * config.maxMerge := Nat.mul_le_mul_right _ hlt
    _ ≤ i := Nat.div_mul_le_self _ _
    _ ≤ burst.length := hi.le

end

/-! ### All incidents -/

/-- Every alert is in exactly one incident. -/
theorem mergedAlertIds_perm : ((deduplicateAlerts parse order alerts config).flatMap
    DedupIncident.mergedAlertIds).Perm (List.range alerts.length) := by
  obtain ⟨found, hperm, hbuilt⟩ := exists_incidents parse config order alerts
  have hids : found.map DedupIncident.mergedAlertIds =
      (pieces parse config order alerts).map (List.map Prod.snd) := by
    refine (map_eq_of_forall₂ hbuilt fun piece incident hfrom => ?_).symm
    obtain ⟨id, fp, rfl⟩ := hfrom
    rfl
  have hflat := (flatten_pieces_perm parse config order alerts).map Prod.snd
  refine (hperm.flatMap_right _).trans ?_
  rwa [List.zipIdx_map_snd, ← List.range_eq_range', List.map_flatten, ← hids] at hflat

theorem sound_iff_neighbours (hmost : 0 < config.maxMerge) :
    (∀ incident ∈ deduplicateAlerts parse order alerts config,
        incident.Sound parse config alerts) ↔
      ∀ key, ∀ burst ∈ bursts parse config alerts key, ∀ i x y, burst[i]? = some x →
        burst[i + 1]? = some y → (i + 1) % config.maxMerge ≠ 0 →
          SameKey config x.1 y.1 ∧ WithinWindow parse config x.1 y.1 := by
  have hone {key : String} {burst : List Member} {k : ℕ} {incident : DedupIncident}
      (hburst : burst ∈ bursts parse config alerts key) (hk : k * config.maxMerge < burst.length)
      (hfrom : BuiltFrom (share config.maxMerge burst k) incident) :
      incident.Sound parse config alerts ↔ (share config.maxMerge burst k).IsChain fun x y =>
        SameKey config x.1 y.1 ∧ WithinWindow parse config x.1 y.1 := by
    refine sound_iff hfrom (subset_of_share hburst) (List.ne_nil_of_length_pos ?_) ?_
    · rw [length_share]
      omega
    · rw [length_share]
      exact min_le_left _ _
  constructor
  · intro h key burst hburst
    refine (isChain_shares_iff hmost).mp ?_
    rintro piece ⟨k, hk, rfl⟩
    obtain ⟨incident, hincident, hfrom⟩ := incident_of_share hmost hburst hk
    exact (hone hburst hk hfrom).mp (h incident hincident)
  · intro h incident hincident
    obtain ⟨key, burst, hburst, k, hk, hfrom⟩ := share_of_incident hmost hincident
    exact (hone hburst hk hfrom).mpr ((isChain_shares_iff hmost).mpr (h key burst hburst) _
      ⟨k, hk, rfl⟩)

/-- An alert is in a full incident if it stands in a filled share of its burst. -/
theorem exists_full_iff (hmost : 0 < config.maxMerge) {y : Member} (hy : y ∈ alerts.zipIdx) :
    (∃ other ∈ deduplicateAlerts parse order alerts config,
        y.2 ∈ other.mergedAlertIds ∧ other.Full config) ↔
      ∃ other ∈ bursts parse config alerts (config.key y.1), ∃ n, other[n]? = some y ∧
        Filled config other n := by
  constructor
  · rintro ⟨incident, hincident, hmem, hfull⟩
    obtain ⟨key, burst, hburst, k, hk, hfrom⟩ := share_of_incident hmost hincident
    rw [mem_mergedAlertIds hfrom (subset_of_share hburst) hy, mem_share hmost] at hmem
    obtain ⟨n, hn, rfl⟩ := hmem
    rw [full_iff hfrom, length_share_eq_iff hmost] at hfull
    have hkey := (mem_zipIdx_of_burst hburst (List.mem_of_getElem? hn)).2
    exact ⟨burst, hkey.symm ▸ hburst, n, hn, hfull⟩
  · rintro ⟨burst, hburst, n, hn, hfilled⟩
    obtain ⟨incident, hincident, hfrom⟩ := incident_of_share hmost hburst (start_lt_length hn)
    refine ⟨incident, hincident, ?_, ?_⟩
    · rw [mem_mergedAlertIds hfrom (subset_of_share hburst) hy, mem_share hmost]
      exact ⟨n, hn, rfl⟩
    · rw [full_iff hfrom, length_share_eq_iff hmost]
      exact hfilled

/-- The incidents partition the alerts as they should if and only if the texts of the timestamps
are in an order that fits. -/
theorem deduplication_partitions_iff (parse : String → Option ℤ) (order : IterationOrder String)
    (alerts : List AlertRecord) (config : DedupConfig) (hmost : 1 ≤ config.maxMerge) :
    Partitions parse config alerts (deduplicateAlerts parse order alerts config) ↔
      TextOrderFits parse config alerts := by
  constructor
  · rintro ⟨-, hsound, hseparated⟩
    refine ⟨(sound_iff_neighbours hmost).mp hsound, ?_⟩
    intro key burst hburst i x hx y hy hadjacent
    obtain ⟨incident, hincident, hfrom⟩ := incident_of_share hmost hburst (start_lt_length hx)
    have hsub := subset_of_share hburst (k := i / config.maxMerge)
    have hxmem := (mem_zipIdx_of_burst hburst (List.mem_of_getElem? hx)).1
    have hxin := (mem_mergedAlertIds hfrom hsub hxmem).mpr ((mem_share hmost).mpr ⟨i, hx, rfl⟩)
    have hcases := hseparated incident hincident x.2 hxin y.2 x.1 y.1
      (List.mem_zipIdx_iff_getElem?.mp hxmem) (List.mem_zipIdx_iff_getElem?.mp hy) hadjacent
    rwa [mem_mergedAlertIds hfrom hsub hy, mem_share hmost, full_iff hfrom,
      length_share_eq_iff hmost, exists_full_iff hmost hy] at hcases
  · rintro ⟨hneighbours, hseparated⟩
    refine ⟨mergedAlertIds_perm, (sound_iff_neighbours hmost).mpr hneighbours, ?_⟩
    intro incident hincident i hi j a b ha hb hadjacent
    obtain ⟨key, burst, hburst, k, hk, hfrom⟩ := share_of_incident hmost hincident
    have hsub := subset_of_share hburst (k := k)
    have hx : (a, i) ∈ alerts.zipIdx := List.mem_zipIdx_iff_getElem?.mpr ha
    have hy : (b, j) ∈ alerts.zipIdx := List.mem_zipIdx_iff_getElem?.mpr hb
    obtain ⟨n, hn, rfl⟩ := (mem_share hmost).mp ((mem_mergedAlertIds hfrom hsub hx).mp hi)
    have hcases := hseparated key burst hburst n (a, i) hn (b, j) hy hadjacent
    rwa [← mem_share hmost, ← mem_mergedAlertIds hfrom hsub hy, Filled,
      ← length_share_eq_iff hmost, ← full_iff hfrom, ← exists_full_iff hmost hy] at hcases

def sampleParse (text : String) : Option ℤ :=
  if text = "2026-04-02T12:00:00+02:00" then some 1775124000000000000
  else if text = "2026-04-02T10:00:00Z" then some 1775124000000000000
  else if text = "2026-04-02T10:01:00Z" then some 1775124060000000000
  else none

def burstAt (timestamp : String) : AlertRecord where
  timestamp := timestamp
  hostname := "host-A"
  score := 3
  level := "Severe"
  reasons := ["network burst"]

/-- Two alerts of one host within a minute are merged into one incident. -/
theorem deduplication_partitions_burst :
    Partitions sampleParse .default [burstAt "2026-04-02T10:00:00Z", burstAt "2026-04-02T10:01:00Z"]
      (deduplicateAlerts sampleParse insertionOrder
        [burstAt "2026-04-02T10:00:00Z", burstAt "2026-04-02T10:01:00Z"] .default) := by
  refine (deduplication_partitions_iff sampleParse insertionOrder _ .default (by decide)).mpr ?_
  refine Uniform.textOrderFits ⟨?_, by decide +kernel, ?_⟩ (by decide)
  · simp only [List.forall_mem_cons]
    exact ⟨⟨1775124000, by decide +kernel⟩, ⟨1775124060, by decide +kernel⟩, nofun⟩
  · simp only [List.forall_mem_cons]
    have hsame (s t : String) : SameKey .default (burstAt s) (burstAt t) :=
      ⟨rfl, rfl, fun _ => rfl⟩
    exact ⟨⟨fun _ => hsame _ _, fun _ => hsame _ _, nofun⟩,
      ⟨fun _ => hsame _ _, fun _ => hsame _ _, nofun⟩, nofun⟩

/-- An alert at 12:00 two hours east of Greenwich is merged behind one that comes a minute after
it. -/
theorem deduplication_partitions_not :
    ¬ Partitions sampleParse .default
      [burstAt "2026-04-02T12:00:00+02:00", burstAt "2026-04-02T10:01:00Z"]
      (deduplicateAlerts sampleParse insertionOrder
        [burstAt "2026-04-02T12:00:00+02:00", burstAt "2026-04-02T10:01:00Z"] .default) := by
  intro h
  have hids : (deduplicateAlerts sampleParse insertionOrder
      [burstAt "2026-04-02T12:00:00+02:00", burstAt "2026-04-02T10:01:00Z"] .default).map
        DedupIncident.mergedAlertIds = [[1, 0]] := by decide +kernel
  obtain ⟨incident, hincident, hmerged⟩ :=
    List.mem_map.mp (hids ▸ List.mem_singleton_self [1, 0])
  have hchain := (h.sound incident hincident).chronological
  rw [DedupIncident.merged, hmerged] at hchain
  have hle := (List.isChain_cons_cons.mp hchain).1.1
  revert hle
  decide +kernel

end Wardex.Alerts
