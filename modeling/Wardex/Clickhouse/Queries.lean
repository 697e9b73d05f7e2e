import Wardex.Clickhouse.Storage
import Wardex.Lib.Grouping
import Wardex.Lib.Windows

/-! Queries over the stored events: pages of the newest ones, and aggregates over the first of them.
What the server answers is a parameter, of which only what the clauses of the `SELECT` promise is
assumed; events of one instant may come in any order. -/

namespace Wardex.Clickhouse

open Wardex.Lib

/-! ## Filters -/

structure EventFilter where
  tenantId : Option String
  fromTime : Option Int
  toTime : Option Int
  severityMin : Option UInt8
  eventClass : Option UInt16
  deviceId : Option String
  userName : Option String
  srcIp : Option String
  limit : Option UInt32
  offset : Option UInt32
deriving DecidableEq

def EventFilter.default : EventFilter where
  tenantId := none
  fromTime := none
  toTime := none
  severityMin := none
  eventClass := none
  deviceId := none
  userName := none
  srcIp := none
  limit := none
  offset := none

def matchesFilter (filter : EventFilter) (event : StoredEvent) : Bool :=
  filter.tenantId.all (fun tenantId => event.tenantId = tenantId) &&
    filter.fromTime.all (fun fromTime => fromTime ≤ event.timestamp) &&
    filter.toTime.all (fun toTime => event.timestamp ≤ toTime) &&
    filter.severityMin.all (fun severityMin => severityMin ≤ event.severity) &&
    filter.eventClass.all (fun eventClass => event.eventClass = eventClass) &&
    filter.deviceId.all (fun deviceId => event.deviceId = deviceId) &&
    filter.userName.all (fun userName => event.userName = userName) &&
    filter.srcIp.all fun srcIp => event.srcIp = srcIp

/-- The order of the answers: the newest event comes first. -/
abbrev Newest : StoredEvent → StoredEvent → Prop :=
  Rising fun event => OrderDual.toDual event.timestamp

namespace EventFilter

variable (filter : EventFilter)

def skipped : ℕ := (filter.offset.getD 0).toNat

def wanted : ℕ := (filter.limit.getD 100).toNat

/-- The page of a list of events in order. -/
def page (sorted : List StoredEvent) : List StoredEvent :=
  (sorted.drop filter.skipped).take filter.wanted

end EventFilter

def applyOffsetLimit (events : List StoredEvent) (filter : EventFilter) : List StoredEvent :=
  filter.page (events.insertionSort Newest)

/-! ## Aggregates -/

def groupedValue (event : StoredEvent) (field : String) : String :=
  match field with
  | "tenant_id" => event.tenantId
  | "severity" => toString event.severity.toNat
  | "device_id" => event.deviceId
  | "user_name" => event.userName
  | "event_class" => toString event.eventClass.toNat
  | _ => "other"

inductive AggregationMetric where
  | count
  | countDistinct (field : String)

structure AggregationQuery where
  groupBy : String
  metric : AggregationMetric
  filter : EventFilter

structure AggBucket where
  key : String
  count : ℕ
deriving DecidableEq

structure AggregationResult where
  buckets : List AggBucket
  total : ℕ
deriving DecidableEq

def sortBuckets (buckets : List AggBucket) : List AggBucket :=
  buckets.insertionSort (Rising fun bucket => OrderDual.toDual bucket.count)

def aggregateEvents (order : IterationOrder String) (events : List StoredEvent)
    (query : AggregationQuery) : AggregationResult :=
  match query.metric with
  | .count =>
    let entries := events.map fun event => (groupedValue event query.groupBy, event)
    { buckets := sortBuckets ((groups order entries).map fun g => ⟨g.1, g.2.length⟩)
      total := events.length }
  | .countDistinct field =>
    let entries := events.map fun event =>
      (groupedValue event query.groupBy, groupedValue event field)
    let buckets := sortBuckets ((groups order entries).map fun g => ⟨g.1, g.2.dedup.length⟩)
    { buckets, total := (buckets.map AggBucket.count).sum }

/-! ## The two stores -/

structure InMemoryEventStore where
  events : List StoredEvent

namespace InMemoryEventStore

variable (s : InMemoryEventStore)

def queryEvents (filter : EventFilter) : List StoredEvent :=
  applyOffsetLimit (s.events.filter (matchesFilter filter)) filter

def countEvents (filter : EventFilter) : ℕ := s.events.countP (matchesFilter filter)

def aggregate (order : IterationOrder String) (query : AggregationQuery) : AggregationResult :=
  aggregateEvents order (s.queryEvents { query.filter with limit := some 50000, offset := some 0 })
    query

end InMemoryEventStore

def saturatingAdd (a b : ℕ) : ℕ := min (a + b) (2 ^ 32 - 1)

/-- How many events are asked of the server if this many match in the buffer. -/
def fetchLimit (filter : EventFilter) (buffered : ℕ) : ℕ :=
  max (saturatingAdd (saturatingAdd filter.skipped filter.wanted) (buffered % 2 ^ 32)) 100

/-- What the server adds to the events of the buffer; nothing if it is not asked or the request
fails. -/
def remoteSelectEvents (config : ClickHouseConfig)
    (remote : EventFilter → ℕ → Option (List StoredEvent)) (filter : EventFilter)
    (buffered : ℕ) : Option (List StoredEvent) :=
  if config.isMemoryMode then none else remote filter (max (fetchLimit filter buffered) 1)

/-- `query_events` of the ClickHouse storage. -/
def queryEvents (config : ClickHouseConfig) (remote : EventFilter → ℕ → Option (List StoredEvent))
    (buffer : List StoredEvent) (filter : EventFilter) : List StoredEvent :=
  let buffered := buffer.filter (matchesFilter filter)
  applyOffsetLimit
    (buffered ++ (remoteSelectEvents config remote filter buffered.length).getD []) filter

/-! ## Pages -/

/-- The events in the order of the answers: the newest first, and any order among those of one
instant. -/
structure Ordered (events sorted : List StoredEvent) (filter : EventFilter) : Prop where
  perm : sorted.Perm (events.filter (matchesFilter filter))
  newest : sorted.Pairwise Newest

/-- What `WHERE`, `ORDER BY timestamp DESC` and `LIMIT` promise. -/
def Selects (table : List StoredEvent) (filter : EventFilter) (limit : ℕ)
    (answer : List StoredEvent) : Prop :=
  ∃ sorted, Ordered table sorted filter ∧ answer = sorted.take limit

variable {filter : EventFilter} {events sorted sorted' : List StoredEvent}

theorem ordered_insertionSort (events : List StoredEvent) (filter : EventFilter) :
    Ordered events ((events.filter (matchesFilter filter)).insertionSort Newest) filter :=
  ⟨List.perm_insertionSort _ _, pairwise_sorted _ _⟩

theorem Ordered.timestamps_eq (h : Ordered events sorted filter)
    (h' : Ordered events sorted' filter) :
    (filter.page sorted).map StoredEvent.timestamp =
      (filter.page sorted').map StoredEvent.timestamp := by
  have hdual := map_eq_of_perm h.newest h'.newest (h.perm.trans h'.perm.symm)
  have htimes : sorted.map StoredEvent.timestamp = sorted'.map StoredEvent.timestamp := hdual
  rw [EventFilter.page, EventFilter.page, List.map_take, List.map_drop, htimes, ← List.map_drop,
    ← List.map_take]

theorem page_eq_of_take_eq (h : sorted.take (filter.skipped + filter.wanted) =
    sorted'.take (filter.skipped + filter.wanted)) : filter.page sorted = filter.page sorted' := by
  rw [EventFilter.page, EventFilter.page, List.take_drop, List.take_drop, h]

theorem le_fetchLimit (hfits : filter.skipped + filter.wanted < 2 ^ 32) (buffered : ℕ) :
    filter.skipped + filter.wanted ≤ fetchLimit filter buffered := by
  unfold fetchLimit saturatingAdd
  omega

/-- The stored events that a query sees: those of the server only if it answers. -/
def visible (config : ClickHouseConfig) (remote : EventFilter → ℕ → Option (List StoredEvent))
    (table buffer : List StoredEvent) (filter : EventFilter) : List StoredEvent :=
  buffer ++ if (remoteSelectEvents config remote filter
    (buffer.countP (matchesFilter filter))).isSome then table else []

/-- The answer of a server that keeps to the clauses of the query. -/
def selectFrom (table : List StoredEvent) (filter : EventFilter) (limit : ℕ) :
    Option (List StoredEvent) :=
  some (((table.filter (matchesFilter filter)).insertionSort Newest).take limit)

def loginAt (timestamp : Int) : StoredEvent where
  timestamp := timestamp
  tenantId := "default"
  eventClass := 3002
  severity := 4
  deviceId := "dev1"
  userName := "root"
  processName := "sshd"
  srcIp := "10.0.0.1"
  dstIp := "10.0.0.2"
  rawJson := "\x7b\x7d"

/-- The second newest event. -/
def secondEvent : EventFilter := { EventFilter.default with limit := some 1, offset := some 1 }

/-- The pages of one size, one after the other. -/
def InMemoryEventStore.pages (s : InMemoryEventStore) (filter : EventFilter) (size : UInt32)
    (n : ℕ) : List StoredEvent :=
  (List.range n).flatMap fun i => s.queryEvents
    { filter with limit := some size, offset := some (UInt32.ofNat (i * size.toNat)) }

theorem pages_eq (s : InMemoryEventStore) (filter : EventFilter) (size : UInt32) (n : ℕ)
    (hfits : n * size.toNat ≤ 2 ^ 32) : s.pages filter size n =
      ((s.events.filter (matchesFilter filter)).insertionSort Newest).take (n * size.toNat) := by
  induction n with
  | zero => simp [InMemoryEventStore.pages]
  | succ n ih =>
    have hle : n * size.toNat + size.toNat ≤ 2 ^ 32 := by rwa [← Nat.succ_mul]
    have hpage : s.queryEvents
          { filter with limit := some size, offset := some (UInt32.ofNat (n * size.toNat)) } =
        (((s.events.filter (matchesFilter filter)).insertionSort Newest).drop
          (n * size.toNat)).take size.toNat := by
      have hlt : n * size.toNat % 2 ^ 32 = n * size.toNat := by
        rcases Nat.eq_zero_or_pos size.toNat with hzero | hpos
        · rw [hzero, Nat.mul_zero, Nat.zero_mod]
        · exact Nat.mod_eq_of_lt (by omega)
      change ((((s.events.filter (matchesFilter filter)).insertionSort Newest).drop
        (n * size.toNat % 2 ^ 32)).take size.toNat) = _
      rw [hlt]
    rw [InMemoryEventStore.pages, List.range_succ, List.flatMap_append, List.flatMap_singleton,
      hpage, Nat.succ_mul, List.take_add]
    exact congrArg (· ++ _) (ih (by omega))

/-- Read page by page, a store gives every event that matches exactly once, the newest first. -/
theorem pages_exhaust (s : InMemoryEventStore) (filter : EventFilter) (size : UInt32) (n : ℕ)
    (hfits : n * size.toNat ≤ 2 ^ 32) (hall : s.countEvents filter ≤ n * size.toNat) :
    (s.pages filter size n).Perm (s.events.filter (matchesFilter filter)) ∧
      (s.pages filter size n).Pairwise Newest := by
  have hsorted := ordered_insertionSort s.events filter
  have htake : s.pages filter size n =
      (s.events.filter (matchesFilter filter)).insertionSort Newest := by
    rw [pages_eq s filter size n hfits]
    refine List.take_of_length_le ?_
    rw [hsorted.perm.length_eq, ← List.countP_eq_length_filter]
    exact hall
  rw [htake]
  exact ⟨hsorted.perm, hsorted.newest⟩

theorem pages_exhaust_sshd :
    ((InMemoryEventStore.mk [loginAt 20, loginAt 40, loginAt 10]).pages .default 2 2).Perm
        [loginAt 20, loginAt 40, loginAt 10] ∧
      ((InMemoryEventStore.mk [loginAt 20, loginAt 40, loginAt 10]).pages .default 2 2).Pairwise
        Newest :=
  pages_exhaust ⟨[loginAt 20, loginAt 40, loginAt 10]⟩ .default 2 2 (by decide) (by decide)

/-! ### Buckets -/

/-- What is counted in a bucket. -/
def AggregationMetric.measure (metric : AggregationMetric) (events : List StoredEvent) : ℕ :=
  match metric with
  | .count => events.length
  | .countDistinct field => (events.map fun event => groupedValue event field).dedup.length

variable (order : IterationOrder String) (events : List StoredEvent) (query : AggregationQuery)

/-- The events of one group. -/
def AggregationQuery.group (key : String) : List StoredEvent :=
  events.filter fun event => groupedValue event query.groupBy = key

/-- The buckets before they are sorted. -/
def AggregationQuery.buckets : List AggBucket :=
  (order.order (events.map fun event => groupedValue event query.groupBy).dedup).map fun key =>
    ⟨key, query.metric.measure (query.group events key)⟩

theorem buckets_aggregateEvents : (aggregateEvents order events query).buckets =
    sortBuckets (query.buckets order events) := by
  have hkeys {β : Type} (value : StoredEvent → β) :
      (events.map fun event => (groupedValue event query.groupBy, value event)).map Prod.fst =
        events.map fun event => groupedValue event query.groupBy := by
    rw [List.map_map]
    rfl
  have hvalues {β : Type} (value : StoredEvent → β) (key : String) :
      valuesAt (events.map fun event => (groupedValue event query.groupBy, value event)) key =
        (query.group events key).map value := by
    rw [valuesAt, List.filter_map, List.map_map]
    rfl
  obtain ⟨groupBy, metric, filter⟩ := query
  cases metric with
  | count =>
    change sortBuckets _ = _
    rw [groups, List.map_map, hkeys fun event => event]
    refine congrArg sortBuckets (List.map_congr_left fun key _ => ?_)
    rw [Function.comp_apply, hvalues fun event => event, List.map_id']
    rfl
  | countDistinct field =>
    change sortBuckets _ = _
    rw [groups, List.map_map, hkeys fun event => groupedValue event field]
    refine congrArg sortBuckets (List.map_congr_left fun key _ => ?_)
    rw [Function.comp_apply, hvalues fun event => groupedValue event field]
    rfl

theorem total_aggregateEvents : (aggregateEvents order events query).total =
    ((aggregateEvents order events query).buckets.map AggBucket.count).sum := by
  obtain ⟨groupBy, metric, filter⟩ := query
  cases metric with
  | countDistinct field => rfl
  | count =>
    have hgroups := (flatMap_groups_perm order (fun event => groupedValue event groupBy)
      events).length_eq
    rw [List.length_flatMap] at hgroups
    change events.length = _
    rw [← hgroups]
    change _ = ((sortBuckets _).map AggBucket.count).sum
    rw [sortBuckets, ((List.perm_insertionSort _ _).map AggBucket.count).sum_eq, List.map_map]
    rfl

/-- The events that an aggregate is taken over. -/
def InMemoryEventStore.sampled (s : InMemoryEventStore) : List StoredEvent :=
  s.queryEvents { query.filter with limit := some 50000, offset := some 0 }

theorem length_sampled (s : InMemoryEventStore) :
    (s.sampled query).length = min 50000 (s.countEvents query.filter) := by
  have hsort := (ordered_insertionSort s.events query.filter).perm.length_eq
  change ((List.drop 0 _).take 50000).length = _
  rw [List.drop_zero, List.length_take, InMemoryEventStore.countEvents,
    List.countP_eq_length_filter]
  exact congrArg (min 50000) hsort

/-- An aggregate is one over the newest fifty thousand events that match: one bucket for each value
of the field, the greatest first, and together they are the total. -/
theorem aggregate_buckets (s : InMemoryEventStore) :
    (s.sampled query).length = min 50000 (s.countEvents query.filter) ∧
      ((s.aggregate order query).buckets.map AggBucket.key).Perm
        ((s.sampled query).map fun event => groupedValue event query.groupBy).dedup ∧
      (s.aggregate order query).buckets.Pairwise (fun b c => c.count ≤ b.count) ∧
      (∀ b ∈ (s.aggregate order query).buckets,
        b.count = query.metric.measure (query.group (s.sampled query) b.key)) ∧
      (s.aggregate order query).total =
        ((s.aggregate order query).buckets.map AggBucket.count).sum := by
  have hbuckets : (s.aggregate order query).buckets =
      sortBuckets (query.buckets order (s.sampled query)) :=
    buckets_aggregateEvents order (s.sampled query) query
  have hperm : (s.aggregate order query).buckets.Perm
      (query.buckets order (s.sampled query)) := by
    rw [hbuckets]
    exact List.perm_insertionSort _ _
  refine ⟨length_sampled query s, ?_, ?_, ?_, total_aggregateEvents order (s.sampled query) query⟩
  · refine (hperm.map AggBucket.key).trans ?_
    rw [AggregationQuery.buckets, List.map_map]
    exact (List.Perm.of_eq (List.map_id _)).trans (order.perm _)
  · rw [hbuckets]
    exact pairwise_sorted (fun bucket : AggBucket => OrderDual.toDual bucket.count) _
  · intro b hb
    obtain ⟨key, -, rfl⟩ := List.mem_map.mp (hperm.mem_iff.mp hb)
    rfl

end Wardex.Clickhouse
