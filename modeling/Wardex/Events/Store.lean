import Mathlib.Data.List.Sort
import Wardex.Enrollment.Registry
import Wardex.Lib.Grouping
import Wardex.Lib.Records
import Wardex.Lib.Text

/-! Events that agents forward, with the marks that analysts put on them, and their store in
memory: ingestion with its limit, the correlation of events across agents, triage and retention.
What an alert carries besides the fields read here is a parameter, and so are its scores. -/

namespace Wardex.Events

open Wardex.Lib Wardex.Enrollment

structure MitreAttack where
  tactic : String
  techniqueId : String
  techniqueName : String
deriving DecidableEq

structure AlertRecord (S A : Type) where
  score : S
  level : String
  reasons : List String
  mitre : List MitreAttack
  other : A
deriving DecidableEq

structure EventBatch (S A : Type) where
  agentId : String
  events : List (AlertRecord S A)

structure EventNote where
  author : String
  note : String
  createdAt : String
deriving DecidableEq

structure EventTriage where
  status : String
  assignee : Option String
  tags : List String
  notes : List EventNote
  acknowledgedAt : Option String
  resolvedAt : Option String
  lastUpdatedAt : String
deriving DecidableEq

structure EventTriageUpdate where
  status : Option String
  assignee : Option String
  tags : Option (List String)
  note : Option String
  author : Option String

structure StoredEvent (S A : Type) where
  id : UInt64
  agentId : String
  receivedAt : String
  alert : AlertRecord S A
  correlated : Bool
  triage : EventTriage
deriving DecidableEq

section

variable {S A : Type}

/-! ## Triage -/

def EventTriage.default (now : String) : EventTriage where
  status := "new"
  assignee := none
  tags := []
  notes := []
  acknowledgedAt := none
  resolvedAt := none
  lastUpdatedAt := now

def normalizeStatus (status : String) : Option String :=
  let normalized := toAsciiLowercase (trimText status)
  if normalized ∈ ["new", "acknowledged", "investigating", "contained", "resolved"] then
    some normalized
  else none

namespace EventTriage

def withStatus (triage : EventTriage) (status : Option String) (now : String) :
    Except String EventTriage :=
  match status with
  | none => .ok triage
  | some status =>
    match normalizeStatus status with
    | none => .error ("invalid triage status: " ++ status)
    | some normalized => .ok { triage with
        status := normalized
        acknowledgedAt :=
          if normalized ∈ ["acknowledged", "investigating", "contained", "resolved"] then
            triage.acknowledgedAt.or (some now)
          else triage.acknowledgedAt
        resolvedAt := if normalized = "resolved" then some now else none }

def withAssignee (triage : EventTriage) : Option String → EventTriage
  | none => triage
  | some assignee =>
    let trimmed := trimText assignee
    { triage with assignee := if trimmed = "" then none else some trimmed }

def withTags (triage : EventTriage) : Option (List String) → EventTriage
  | none => triage
  | some tags =>
    let tags := (tags.map fun tag => toAsciiLowercase (trimText tag)).filter fun tag => tag ≠ ""
    { triage with tags := (tags.insertionSort fun a b => a ≤ b).dedup }

def withNote (triage : EventTriage) (note author : Option String) (now : String) : EventTriage :=
  match note with
  | none => triage
  | some note =>
    let trimmed := trimText note
    if trimmed = "" then triage
    else { triage with notes := triage.notes ++ [⟨author.getD "analyst", trimmed, now⟩] }

/-- All the marks of an update, or the error of its status. -/
def update (triage : EventTriage) (update : EventTriageUpdate) (now : String) :
    Except String EventTriage :=
  (triage.withStatus update.status now).map fun triage =>
    { ((triage.withAssignee update.assignee).withTags update.tags).withNote update.note
        update.author now with lastUpdatedAt := now }

end EventTriage

def StoredEvent.withTriage (event : StoredEvent S A) (triage : EventTriage) : StoredEvent S A :=
  { event with triage := triage }

@[simp] theorem StoredEvent.id_withTriage (event : StoredEvent S A) (triage : EventTriage) :
    (event.withTriage triage).id = event.id := rfl

end

/-! ## The store -/

/-- Arithmetic of `f32` scores: `(score + 1.5).min(10.0)`, and comparison with a bound. -/
structure ScoreOps (S : Type) where
  boost : S → S
  atLeast : S → Nat → Bool

/-- The clock texts, the scores, and the order in which hash maps are walked through. -/
structure StoreEnv (S : Type) where
  chrono : Chrono
  scores : ScoreOps S
  order : IterationOrder String

structure EventStore (S A : Type) where
  events : List (StoredEvent S A)
  nextId : UInt64
  maxEvents : Nat
  correlationWindowSecs : Int

structure CorrelationMatch where
  reason : String
  agents : List String
  eventIds : List UInt64
  severity : String
  description : String
deriving DecidableEq

structure IngestResult where
  ingested : Nat
  total : Nat
  correlations : List CorrelationMatch

structure BulkTriageResult where
  updated : Nat
  failed : List (UInt64 × String)

variable {S A : Type}

def StoredEvent.primaryReason (event : StoredEvent S A) : String := event.alert.reasons.headD ""

/-- `DateTime::timestamp`, the whole seconds of an instant. -/
def timestamp (instant : Int) : Int := instant / 1000000000

variable (env : StoreEnv S)

def severityLevel (score : S) : String :=
  if env.scores.atLeast score 8 then "Critical"
  else if env.scores.atLeast score 6 then "Severe"
  else if env.scores.atLeast score 4 then "Elevated"
  else "Nominal"

def StoredEvent.markCorrelated (event : StoredEvent S A) : StoredEvent S A :=
  let score := env.scores.boost event.alert.score
  { event with
    correlated := true
    alert := { event.alert with score := score, level := severityLevel env score } }

namespace EventStore

def new (maxEvents : Nat) : EventStore S A := ⟨[], 1, maxEvents, 60⟩

def trimToLimit (store : EventStore S A) : EventStore S A :=
  { store with events := store.events.drop (store.events.length - store.maxEvents) }

/-! ## Correlation -/

/-- The events not yet correlated that have a reason, under that reason, each with its index. -/
def byReason (events : List (StoredEvent S A)) : List (String × Nat × StoredEvent S A) :=
  (events.zipIdx.filter fun p => !p.1.correlated && p.1.primaryReason ≠ "").map fun p =>
    (p.1.primaryReason, p.2, p.1)

def correlationMatch (window : Int) (reason : String) (group : List (StoredEvent S A)) :
    Option CorrelationMatch :=
  if group.length < 2 then none
  else
    let agents := env.order.order (group.map StoredEvent.agentId).dedup
    if agents.length < 2 then none
    else
      let timestamps := group.filterMap fun event =>
        (env.chrono.parse event.receivedAt).map timestamp
      if timestamps.length < 2 then none
      else
        match timestamps.min?, timestamps.max? with
        | some minTs, some maxTs =>
          if maxTs - minTs ≤ window then
            some {
              reason := reason
              agents := agents
              eventIds := group.map StoredEvent.id
              severity := "high"
              description := "Cross-agent correlation: '" ++ reason ++ "' detected on " ++
                toString agents.length ++ " agents within " ++ toString window ++ "s window" }
          else none
        | _, _ => none

def markAt (events : List (StoredEvent S A)) (indices : List Nat) : List (StoredEvent S A) :=
  events.mapIdx fun i event => if i ∈ indices then event.markCorrelated env else event

/-- The walk through the groups.  What it tests in an event it never changes, so the groups are
as they were when it began. -/
def correlateGroups (window : Int) (events : List (StoredEvent S A)) :
    List (String × List (Nat × StoredEvent S A)) → List (StoredEvent S A) × List CorrelationMatch
  | [] => (events, [])
  | (reason, group) :: rest =>
    match correlationMatch env window reason (group.map Prod.snd) with
    | none => correlateGroups window events rest
    | some found =>
      let result := correlateGroups window (markAt env events (group.map Prod.fst)) rest
      (result.1, found :: result.2)

def correlate (store : EventStore S A) : EventStore S A × List CorrelationMatch :=
  let result := correlateGroups env store.correlationWindowSecs store.events
    (groups env.order (byReason store.events))
  ({ store with events := result.1 }, result.2)

/-! ## Ingestion -/

/-- The events a batch makes, the first with the given id. -/
def receivedEvents (agentId receivedAt : String) : UInt64 → List (AlertRecord S A) →
    List (StoredEvent S A)
  | _, [] => []
  | id, alert :: alerts =>
    ⟨id, agentId, receivedAt, alert, false, .default receivedAt⟩ ::
      receivedEvents agentId receivedAt (id + 1) alerts

/-- The store with the events of a batch, trimmed to its limit and not yet correlated. -/
def push (store : EventStore S A) (batch : EventBatch S A) (now : Int) : EventStore S A :=
  trimToLimit { store with
    events := store.events ++
      receivedEvents batch.agentId (env.chrono.format now) store.nextId batch.events
    nextId := store.nextId + UInt64.ofNat batch.events.length }

def ingest (store : EventStore S A) (batch : EventBatch S A) (now : Int) :
    EventStore S A × IngestResult :=
  let (store, correlations) := correlate env (store.push env batch now)
  (store, ⟨batch.events.length, store.events.length, correlations⟩)

/-! ## Triage and retention -/

def updateTriage (store : EventStore S A) (eventId : UInt64) (update : EventTriageUpdate)
    (now : Int) : EventStore S A × Except String (StoredEvent S A) :=
  match store.events.find? fun event => event.id = eventId with
  | none => (store, .error "event not found")
  | some event =>
    match event.triage.update update (env.chrono.format now) with
    | .error e => (store, .error e)
    | .ok triage =>
      ({ store with
        events := updateFirst (fun event => event.id = eventId) (fun event =>
          event.withTriage triage) store.events }, .ok (event.withTriage triage))

/-- One event after the other; an event that fails keeps its triage. -/
def bulkUpdateTriage (store : EventStore S A) (update : EventTriageUpdate) (now : Int) :
    List UInt64 → EventStore S A × BulkTriageResult
  | [] => (store, ⟨0, []⟩)
  | eventId :: rest =>
    let updated := store.updateTriage env eventId update now
    let result := bulkUpdateTriage updated.1 update now rest
    match updated.2 with
    | .ok _ => (result.1, { result.2 with updated := result.2.updated + 1 })
    | .error e => (result.1, { result.2 with failed := (eventId, e) :: result.2.failed })

def applyRetention (store : EventStore S A) (max : Nat) : EventStore S A × Nat :=
  if store.events.length ≤ max then (store, 0)
  else
    let trim := store.events.length - max
    ({ store with events := store.events.drop trim }, trim)

/-! ## What the operations keep -/

variable {env} {store : EventStore S A}

theorem length_trimToLimit_le : store.trimToLimit.events.length ≤ store.maxEvents := by
  rw [trimToLimit, List.length_drop]
  omega

theorem correlated_of_mem_receivedEvents {agentId receivedAt : String} {id : UInt64}
    {alerts : List (AlertRecord S A)} {event : StoredEvent S A}
    (h : event ∈ receivedEvents agentId receivedAt id alerts) : event.correlated = false := by
  induction alerts generalizing id with
  | nil => exact absurd h List.not_mem_nil
  | cons alert alerts ih =>
    rcases List.mem_cons.mp h with rfl | h
    · rfl
    · exact ih h

/-- After a push, an event was in the store before or is not correlated. -/
theorem mem_events_push {batch : EventBatch S A} {now : Int} {event : StoredEvent S A}
    (h : event ∈ (store.push env batch now).events) :
    event ∈ store.events ∨ event.correlated = false :=
  (List.mem_append.mp (List.mem_of_mem_drop h)).imp_right correlated_of_mem_receivedEvents

/-- The stores hold the same ids in the same order, under the same counter and limit. -/
structure SameIds (store store' : EventStore S A) : Prop where
  ids : store'.events.map StoredEvent.id = store.events.map StoredEvent.id
  nextId : store'.nextId = store.nextId
  maxEvents : store'.maxEvents = store.maxEvents

theorem SameIds.refl (store : EventStore S A) : SameIds store store := ⟨rfl, rfl, rfl⟩

theorem SameIds.trans {store' store'' : EventStore S A} (h : SameIds store store')
    (h' : SameIds store' store'') : SameIds store store'' :=
  ⟨h'.ids.trans h.ids, h'.nextId.trans h.nextId, h'.maxEvents.trans h.maxEvents⟩

theorem SameIds.length_le {store' : EventStore S A} (h : SameIds store store')
    (hlength : store.events.length ≤ store.maxEvents) :
    store'.events.length ≤ store'.maxEvents := by
  have hlengths := congrArg List.length h.ids
  rw [List.length_map, List.length_map] at hlengths
  rw [hlengths, h.maxEvents]
  exact hlength

theorem sameIds_updateTriage (env : StoreEnv S) (store : EventStore S A) (eventId : UInt64)
    (update : EventTriageUpdate) (now : Int) :
    SameIds store (store.updateTriage env eventId update now).1 := by
  unfold updateTriage
  cases store.events.find? fun event => event.id = eventId with
  | none => exact .refl store
  | some event =>
    dsimp only
    cases event.triage.update update (env.chrono.format now) with
    | error e => exact .refl store
    | ok triage => exact ⟨map_updateFirst fun _ => rfl, rfl, rfl⟩

theorem sameIds_bulkUpdateTriage (env : StoreEnv S) (store : EventStore S A)
    (update : EventTriageUpdate) (now : Int) (eventIds : List UInt64) :
    SameIds store (store.bulkUpdateTriage env update now eventIds).1 := by
  induction eventIds generalizing store with
  | nil => exact .refl store
  | cons eventId rest ih =>
    have hrest := (sameIds_updateTriage env store eventId update now).trans (ih _)
    rw [bulkUpdateTriage]
    dsimp only
    cases (store.updateTriage env eventId update now).2 with
    | ok event => exact hrest
    | error e => exact hrest

theorem length_correlateGroups (window : Int) (events : List (StoredEvent S A))
    (gs : List (String × List (Nat × StoredEvent S A))) :
    (correlateGroups env window events gs).1.length = events.length := by
  induction gs generalizing events with
  | nil => rfl
  | cons g gs ih =>
    rw [correlateGroups]
    cases correlationMatch env window g.1 (g.2.map Prod.snd) with
    | none => exact ih events
    | some found => exact (ih _).trans List.length_mapIdx

theorem length_events_ingest_le (batch : EventBatch S A) (now : Int) :
    (store.ingest env batch now).1.events.length ≤ store.maxEvents :=
  (length_correlateGroups _ _ _).trans_le length_trimToLimit_le

end EventStore

/-! ## The first hour without scores -/

def plainEnv : StoreEnv Unit := ⟨firstHour, ⟨id, fun _ _ => false⟩, insertionOrder⟩

def batchOf (agentId reason : String) : EventBatch Unit Unit :=
  ⟨agentId, [⟨(), "Elevated", [reason], [], ()⟩]⟩

end Wardex.Events
