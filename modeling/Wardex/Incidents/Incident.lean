import Wardex.Events.Store

/-! Incidents, and how they are made of events: the events of one technique, and then the severe
events of one agent, are put into an incident that is open and has one of them, or into a new
one. -/

namespace Wardex.Incidents

open Wardex.Lib Wardex.Enrollment Wardex.Events

inductive IncidentStatus where
  | opened
  | investigating
  | contained
  | resolved
  | falsePositive
deriving DecidableEq

structure EventNote where
  author : String
  timestamp : String
  text : String
deriving DecidableEq

structure Incident where
  id : UInt64
  title : String
  severity : String
  status : IncidentStatus
  createdAt : String
  updatedAt : String
  eventIds : List UInt64
  agentIds : List String
  mitreTechniques : List MitreAttack
  summary : String
  assignee : Option String
  notes : List EventNote
deriving DecidableEq

structure IncidentStore where
  incidents : List Incident
  nextId : UInt64
deriving DecidableEq

/-- The orders in which the hash maps and sets of one call are walked through. -/
structure HashOrders where
  technique : IterationOrder String
  agent : IterationOrder String
  agentSet : IterationOrder String
  mitreSet : IterationOrder MitreAttack

namespace Incident

def isActive (inc : Incident) : Bool := inc.status = .opened || inc.status = .investigating

/-- The incident is still worked on and has one of the events. -/
def covers (eventIds : List UInt64) (inc : Incident) : Bool :=
  inc.isActive && eventIds.any fun id => id ∈ inc.eventIds

/-- The ids that the incident does not have are added to it. -/
def merge (eventIds : List UInt64) (now : String) (inc : Incident) : Incident :=
  { inc with
    eventIds := eventIds.foldl (fun ids id => if id ∈ ids then ids else ids ++ [id]) inc.eventIds
    updatedAt := now }

end Incident

namespace IncidentStore

def create (store : IncidentStore) (now title severity : String) (eventIds : List UInt64)
    (agentIds : List String) (mitre : List MitreAttack) (summary : String) :
    IncidentStore × UInt64 :=
  ({ incidents := store.incidents ++ [{
      id := store.nextId
      title := title
      severity := severity
      status := .opened
      createdAt := now
      updatedAt := now
      eventIds := eventIds
      agentIds := agentIds
      mitreTechniques := mitre
      summary := summary
      assignee := none
      notes := [] }]
     nextId := store.nextId + 1 }, store.nextId)

/-- What analysts change: the assignee, the status, and a note that is added. -/
def update (store : IncidentStore) (id : UInt64) (assignee : Option String)
    (note : Option EventNote) (status : Option IncidentStatus) (now : String) :
    IncidentStore × Except String Unit :=
  if store.incidents.any fun inc => inc.id = id then
    ({ store with
      incidents := updateFirst (fun inc => inc.id = id) (fun inc => { inc with
        assignee := assignee.or inc.assignee
        notes := inc.notes ++ note.toList
        status := status.getD inc.status
        updatedAt := now }) store.incidents }, .ok ())
  else (store, .error "incident not found")

def isCovered (store : IncidentStore) (eventIds : List UInt64) : Bool :=
  store.incidents.any (Incident.covers eventIds)

/-- The events go to the first incident that covers them. -/
def mergeInto (store : IncidentStore) (eventIds : List UInt64) (now : String) : IncidentStore :=
  { store with
    incidents := updateFirst (Incident.covers eventIds) (Incident.merge eventIds now)
      store.incidents }

end IncidentStore

variable {S A : Type}

def severityRank (level : String) : Nat :=
  if level = "Critical" then 4
  else if level = "Severe" then 3
  else if level = "Elevated" then 2
  else 1

/-- `max_by_key`: the last of the highest levels. -/
def highestLevel : List String → String
  | [] => "Elevated"
  | level :: levels => levels.foldl (fun highest level =>
      if severityRank highest ≤ severityRank level then level else highest) level

variable (chrono : Chrono)

/-- The whole seconds between the first and the last event, if two of them are dated. -/
def spanSecs (group : List (StoredEvent S A)) : Option Int :=
  let timestamps := group.filterMap fun e => chrono.parse e.receivedAt
  if timestamps.length < 2 then none
  else
    match timestamps.min?, timestamps.max? with
    | some minTs, some maxTs => some ((maxTs - minTs) / 1000000000)
    | _, _ => none

/-- The span of a group that makes an incident: two events or more, within the limit. -/
def clusterSpan (limit : Int) (group : List (StoredEvent S A)) : Option Int :=
  if group.length < 2 then none
  else (spanSecs chrono group).filter fun span => span ≤ limit

variable (orders : HashOrders)

/-- One group of events that share a technique. -/
def clusterTechnique (now : String) (store : IncidentStore)
    (entry : String × List (StoredEvent S A)) : IncidentStore × List UInt64 :=
  match clusterSpan chrono 300 entry.2 with
  | none => (store, [])
  | some span =>
    let eventIds := entry.2.map StoredEvent.id
    if store.isCovered eventIds then (store.mergeInto eventIds now, [])
    else
      let agentIds := orders.agentSet.order (entry.2.map StoredEvent.agentId).dedup
      let mitre := orders.mitreSet.order (entry.2.flatMap fun e => e.alert.mitre).dedup
      let severity := highestLevel (entry.2.map fun e => e.alert.level)
      let created := store.create now
        (entry.1 ++ " cluster across " ++ toString agentIds.length ++ " agents") severity eventIds
        agentIds mitre
        ("Auto-detected cluster of " ++ toString eventIds.length ++ " events matching technique " ++
          entry.1 ++ " within " ++ toString span ++ "s window")
      (created.1, [created.2])

/-- One group of severe events of one agent. -/
def clusterBurst (now : String) (store : IncidentStore)
    (entry : String × List (StoredEvent S A)) : IncidentStore × List UInt64 :=
  match clusterSpan chrono 120 entry.2 with
  | none => (store, [])
  | some _ =>
    let eventIds := entry.2.map StoredEvent.id
    if store.isCovered eventIds then (store.mergeInto eventIds now, [])
    else
      let created := store.create now ("Severe event burst on " ++ entry.1) "Severe" eventIds
        [entry.1] (entry.2.flatMap fun e => e.alert.mitre)
        (toString eventIds.length ++ " severe+ events on agent " ++ entry.1 ++
          " within 2-minute window")
      (created.1, [created.2])

/-- The groups one after the other, with the ids of the incidents they make. -/
def clusterGroups (cluster : IncidentStore → String × List (StoredEvent S A) →
    IncidentStore × List UInt64) : IncidentStore → List (String × List (StoredEvent S A)) →
    IncidentStore × List UInt64
  | store, [] => (store, [])
  | store, entry :: entries =>
    let clustered := cluster store entry
    let rest := clusterGroups cluster clustered.1 entries
    (rest.1, clustered.2 ++ rest.2)

def techniqueEntries (events : List (StoredEvent S A)) : List (String × StoredEvent S A) :=
  events.flatMap fun e => e.alert.mitre.map fun mitre => (mitre.techniqueId, e)

def severeEntries (events : List (StoredEvent S A)) : List (String × StoredEvent S A) :=
  (events.filter fun e => e.alert.level = "Critical" || e.alert.level = "Severe").map fun e =>
    (e.agentId, e)

def autoCluster (store : IncidentStore) (events : List (StoredEvent S A)) (now : Int) :
    IncidentStore × List UInt64 :=
  if events.isEmpty then (store, [])
  else
    let byTechnique := clusterGroups (clusterTechnique chrono orders (chrono.format now)) store
      (groups orders.technique (techniqueEntries events))
    let byAgent := clusterGroups (clusterBurst chrono (chrono.format now)) byTechnique.1
      (groups orders.agent (severeEntries events))
    (byAgent.1, byTechnique.2 ++ byAgent.2)

end Wardex.Incidents
