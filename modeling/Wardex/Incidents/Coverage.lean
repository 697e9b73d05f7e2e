import Wardex.Incidents.Stability
import Wardex.Lib.Run

/-! What the clustering of events promises: that events close to each other come into a common
incident, and that an incident lists the agents of its events. -/

namespace Wardex.Incidents

open Wardex.Lib Wardex.Enrollment Wardex.Events

variable {S A : Type}

/-! ## Promises -/

/-- The store, and all events that were clustered into it. -/
structure History (S A : Type) where
  store : IncidentStore
  events : List (StoredEvent S A)

inductive IncidentCall (S A : Type) where
  | cluster (orders : HashOrders) (events : List (StoredEvent S A)) (now : Int)
  | update (id : UInt64) (assignee : Option String) (note : Option EventNote)
      (status : Option IncidentStatus) (now : String)

/-- The agents of an incident are those of its events, which are among those known. -/
structure Incident.Accounted (known : List (StoredEvent S A)) (inc : Incident) : Prop where
  agents : ∀ agent, agent ∈ inc.agentIds ↔ ∃ e ∈ known, e.id ∈ inc.eventIds ∧ e.agentId = agent
  events : ∀ id ∈ inc.eventIds, ∃ e ∈ known, e.id = id

/-- The events were received at most `secs` seconds apart. -/
def CloseBy (chrono : Chrono) (secs : Int) (e e' : StoredEvent S A) : Prop :=
  ∃ t u, chrono.parse e.receivedAt = some t ∧ chrono.parse e'.receivedAt = some u ∧
    t - u ≤ secs * 1000000000 ∧ u - t ≤ secs * 1000000000

def IsSevere (e : StoredEvent S A) : Prop := e.alert.level = "Critical" ∨ e.alert.level = "Severe"

/-- The events share a technique, or are a burst on one agent. -/
inductive Related (chrono : Chrono) (e e' : StoredEvent S A) : Prop
  | technique (m m' : MitreAttack) (hm : m ∈ e.alert.mitre) (hm' : m' ∈ e'.alert.mitre)
      (same : m.techniqueId = m'.techniqueId) (close : CloseBy chrono 300 e e')
  | burst (severe : IsSevere e) (severe' : IsSevere e') (agent : e.agentId = e'.agentId)
      (close : CloseBy chrono 120 e e')

def Together (store : IncidentStore) (e e' : StoredEvent S A) : Prop :=
  ∃ inc ∈ store.incidents, e.id ∈ inc.eventIds ∧ e'.id ∈ inc.eventIds

namespace History

variable (chrono : Chrono)

def start : History S A := ⟨⟨[], 1⟩, []⟩

def after (w : History S A) : IncidentCall S A → History S A
  | .cluster orders events now =>
    ⟨(autoCluster chrono orders w.store events now).1, w.events ++ events⟩
  | .update id assignee note status now =>
    ⟨(w.store.update id assignee note status now).1, w.events⟩

def AgentsRight (w : History S A) : Prop :=
  ∀ inc ∈ w.store.incidents, ∀ agent,
    agent ∈ inc.agentIds ↔ ∃ e ∈ w.events, e.id ∈ inc.eventIds ∧ e.agentId = agent

/-- A clustering brings its related events together. -/
def Gathers (w : History S A) : IncidentCall S A → Prop
  | .cluster orders events now =>
    ∀ e ∈ events, ∀ e' ∈ events, e ≠ e' → Related chrono e e' →
      Together (autoCluster chrono orders w.store events now).1 e e'
  | .update .. => True

end History

/-! ## What the promises take -/

/-- The groups of a technique that are within the window. -/
def techniqueClusters (chrono : Chrono) (events : List (StoredEvent S A)) :
    List (String × List (StoredEvent S A)) :=
  (groups insertionOrder (techniqueEntries events)).filter (eligible chrono 300)

def burstClusters (chrono : Chrono) (events : List (StoredEvent S A)) :
    List (String × List (StoredEvent S A)) :=
  (groups insertionOrder (severeEntries events)).filter (eligible chrono 120)

/-- An id names events of one agent only. -/
def Named (events : List (StoredEvent S A)) : Prop :=
  ∀ e ∈ events, ∀ e' ∈ events, e.id = e'.id → e.agentId = e'.agentId

/-- The first incident that covers a technique cluster lists all agents of it. -/
def Listed (clusters : List (String × List (StoredEvent S A))) (store : IncidentStore) : Prop :=
  ∀ G ∈ clusters, ∀ inc, store.incidents.find? (Incident.covers (groupIds G)) = some inc →
    ∀ e ∈ G.2, e.agentId ∈ inc.agentIds

/-- The events of a clustering, in the state before it: ids name one agent; related events share a
group that is within its window, or an incident; the incident that covers a technique cluster
lists its agents, and technique clusters that share an event have the same agents. -/
structure Fits (chrono : Chrono) (w : History S A) (events : List (StoredEvent S A)) : Prop where
  named : Named (w.events ++ events)
  gathered : ∀ e ∈ events, ∀ e' ∈ events, e ≠ e' → Related chrono e e' →
    Together w.store e e' ∨ ∃ G ∈ techniqueClusters chrono events ++ burstClusters chrono events,
      e.id ∈ groupIds G ∧ e'.id ∈ groupIds G
  listed : Listed (techniqueClusters chrono events) w.store
  shared : ∀ G ∈ techniqueClusters chrono events, ∀ H ∈ techniqueClusters chrono events,
    ∀ id ∈ groupIds G, id ∈ groupIds H → ∀ e ∈ H.2, e.agentId ∈ G.2.map StoredEvent.agentId

def History.Admissible (chrono : Chrono) (w : History S A) : IncidentCall S A → Prop
  | .cluster _ events _ => Fits chrono w events
  | .update .. => True

variable {chrono : Chrono} {known events group : List (StoredEvent S A)}
  {store store' : IncidentStore} {inc : Incident} {ids : List UInt64} {e e' : StoredEvent S A}

/-! ## Events that come together -/

theorem Incident.Grows.together (h : ∀ inc ∈ store.incidents, ∃ inc' ∈ store'.incidents,
      inc.Grows inc') (ht : Together store e e') : Together store' e e' := by
  obtain ⟨inc, hinc, he, he'⟩ := ht
  obtain ⟨inc', hinc', hgrows⟩ := h inc hinc
  exact ⟨inc', hinc', hgrows.subset he, hgrows.subset he'⟩

theorem PlaceAll.together {gs : List (List UInt64)} (h : PlaceAll gs store store')
    (ht : Together store e e') : Together store' e e' := by
  refine Incident.Grows.together (fun inc hinc => ?_) ht
  obtain ⟨i, hget⟩ := List.mem_iff_getElem?.mp hinc
  obtain ⟨inc', hget', hgrows⟩ := h.exists_grows hget
  exact ⟨inc', List.mem_of_getElem? hget', hgrows⟩

theorem Place.together (h : Place ids store store') (he : e.id ∈ ids) (he' : e'.id ∈ ids) :
    Together store' e e' := by
  cases h with
  | merged now hcovered =>
    obtain ⟨i, inc, hget, -, -, hset⟩ :=
      exists_updateFirst_eq_set (f := Incident.merge ids now) hcovered
    refine ⟨inc.merge ids now, ?_, Incident.mem_eventIds_merge.mpr (.inr he),
      Incident.mem_eventIds_merge.mpr (.inr he')⟩
    rw [IncidentStore.mergeInto, hset]
    exact List.mem_set (List.getElem?_eq_some_iff.mp hget).1 _
  | created inc nextId hfree hactive hids =>
    exact ⟨inc, List.mem_append_right _ List.mem_cons_self, hids ▸ he, hids ▸ he'⟩

theorem PlaceAll.together_of_mem {gs : List (List UInt64)} (h : PlaceAll gs store store')
    (hids : ids ∈ gs) (he : e.id ∈ ids) (he' : e'.id ∈ ids) : Together store' e e' := by
  induction h with
  | nil => exact absurd hids List.not_mem_nil
  | cons first rest ih =>
    rcases List.mem_cons.mp hids with rfl | hids
    · exact rest.together (first.together he he')
    · exact ih hids

/-! ## Agents of incidents -/

/-- A group of events is merged into an incident, or makes one that lists its agents. -/
inductive PlaceEvents (group : List (StoredEvent S A)) (store : IncidentStore) :
    IncidentStore → Prop
  | merged (now : String) :
      PlaceEvents group store (store.mergeInto (group.map StoredEvent.id) now)
  | created (inc : Incident) (nextId : UInt64) (hids : inc.eventIds = group.map StoredEvent.id)
      (hagents : ∀ agent, agent ∈ inc.agentIds ↔ agent ∈ group.map StoredEvent.agentId) :
      PlaceEvents group store ⟨store.incidents ++ [inc], nextId⟩

/-- All incidents are accounted for. -/
def AllAccounted (known : List (StoredEvent S A)) (store : IncidentStore) : Prop :=
  ∀ inc ∈ store.incidents, inc.Accounted known

theorem Incident.Accounted.merge (h : inc.Accounted known) (hnamed : Named known)
    (hgroup : ∀ e ∈ group, e ∈ known) (hlisted : ∀ e ∈ group, e.agentId ∈ inc.agentIds)
    (now : String) : (inc.merge (group.map StoredEvent.id) now).Accounted known := by
  constructor
  · intro agent
    refine (h.agents agent).trans ⟨?_, ?_⟩
    · rintro ⟨e, he, hid, hagent⟩
      exact ⟨e, he, mem_eventIds_merge.mpr (.inl hid), hagent⟩
    · rintro ⟨e, he, hid, hagent⟩
      rcases mem_eventIds_merge.mp hid with hid | hid
      · exact ⟨e, he, hid, hagent⟩
      · obtain ⟨g, hg, hsame⟩ := List.mem_map.mp hid
        rw [← hnamed g (hgroup g hg) e he hsame] at hagent
        exact (h.agents agent).mp (hagent ▸ hlisted g hg)
  · intro id hid
    rcases mem_eventIds_merge.mp hid with hid | hid
    · exact h.events id hid
    · obtain ⟨g, hg, hsame⟩ := List.mem_map.mp hid
      exact ⟨g, hgroup g hg, hsame⟩

theorem Incident.accounted_of_created (hnamed : Named known) (hgroup : ∀ e ∈ group, e ∈ known)
    (hids : inc.eventIds = group.map StoredEvent.id)
    (hagents : ∀ agent, agent ∈ inc.agentIds ↔ agent ∈ group.map StoredEvent.agentId) :
    inc.Accounted known := by
  constructor
  · intro agent
    rw [hagents, hids, List.mem_map]
    constructor
    · rintro ⟨g, hg, rfl⟩
      exact ⟨g, hgroup g hg, List.mem_map_of_mem hg, rfl⟩
    · rintro ⟨e, he, hid, rfl⟩
      obtain ⟨g, hg, hsame⟩ := List.mem_map.mp hid
      exact ⟨g, hg, hnamed g (hgroup g hg) e he hsame⟩
  · intro id hid
    obtain ⟨g, hg, hsame⟩ := List.mem_map.mp (hids ▸ hid)
    exact ⟨g, hgroup g hg, hsame⟩

theorem PlaceEvents.allAccounted (h : PlaceEvents group store store') (hnamed : Named known)
    (hgroup : ∀ e ∈ group, e ∈ known) (hstore : AllAccounted known store)
    (hlisted : ∀ inc, store.incidents.find? (Incident.covers (group.map StoredEvent.id)) =
      some inc → ∀ e ∈ group, e.agentId ∈ inc.agentIds) : AllAccounted known store' := by
  cases h with
  | merged now =>
    intro inc hinc
    rcases mem_updateFirst hinc with hinc | ⟨inc', hfirst, rfl⟩
    · exact hstore inc hinc
    · exact (hstore inc' (List.mem_of_find?_eq_some hfirst)).merge hnamed hgroup
        (hlisted inc' hfirst) now
  | created inc nextId hids hagents =>
    intro inc' hinc'
    rcases List.mem_append.mp hinc' with hinc' | hinc'
    · exact hstore inc' hinc'
    · rw [List.mem_singleton.mp hinc']
      exact Incident.accounted_of_created hnamed hgroup hids hagents

/-- What covers a cluster after another was merged covered it before, or has an event of both. -/
theorem PlaceEvents.listed {clusters : List (String × List (StoredEvent S A))}
    {G : String × List (StoredEvent S A)} (h : PlaceEvents G.2 store store')
    (hG : G ∈ clusters) (hstore : Listed clusters store)
    (hshared : ∀ G ∈ clusters, ∀ H ∈ clusters, ∀ id ∈ groupIds G, id ∈ groupIds H →
      ∀ e ∈ H.2, e.agentId ∈ G.2.map StoredEvent.agentId) : Listed clusters store' := by
  intro H hH inc hfirst e he
  obtain ⟨-, id, hid, hidH⟩ := Incident.covers_iff.mp (List.find?_some hfirst)
  cases h with
  | merged now =>
    have hkeep : ∀ inc : Incident, inc.covers (groupIds H) = true →
        (inc.merge (G.2.map StoredEvent.id) now).covers (groupIds H) = true :=
      fun inc hinc => (Incident.grows_merge (Incident.covers_iff.mp hinc).1).covers hinc
    rcases find?_updateFirst_eq_some hkeep hfirst with hold | ⟨inc', hmerged, rfl, hold⟩
    · exact hstore H hH inc hold e he
    · rcases Incident.mem_eventIds_merge.mp hid with hid | hid
      · have hcovers : inc'.covers (groupIds H) = true :=
          Incident.covers_iff.mpr
            ⟨(Incident.covers_iff.mp (List.find?_some hmerged)).1, id, hid, hidH⟩
        exact hstore H hH inc' (hold hcovers) e he
      · obtain ⟨g, hg, hagent⟩ := List.mem_map.mp (hshared G hG H hH id hid hidH e he)
        exact hagent ▸ hstore G hG inc' hmerged g hg
  | created made nextId hids hagents =>
    rw [List.find?_append, Option.or_eq_some_iff] at hfirst
    rcases hfirst with hold | ⟨-, hmade⟩
    · exact hstore H hH inc hold e he
    · obtain rfl := List.mem_singleton.mp (List.mem_of_find?_eq_some hmade)
      rw [Set.mem_ofPred_eq, hids] at hid
      exact (hagents e.agentId).mpr (hshared G hG H hH id hid hidH e he)

theorem placeEvents_clusterTechnique {G : String × List (StoredEvent S A)} (orders : HashOrders)
    (now : String) (h : eligible chrono 300 G = true) :
    PlaceEvents G.2 store (clusterTechnique chrono orders now store G).1 := by
  obtain ⟨span, hspan⟩ := Option.isSome_iff_exists.mp h
  rw [clusterTechnique, hspan]
  dsimp only
  split_ifs with hcovered
  · exact .merged now
  · refine .created _ _ rfl fun agent => ?_
    exact ((orders.agentSet.perm _).mem_iff).trans List.mem_dedup

/-- The events of a burst are of the agent that they are grouped by. -/
theorem agentId_of_mem_burst {o : IterationOrder String} {G : String × List (StoredEvent S A)}
    (h : G ∈ groups o (severeEntries events)) (he : e ∈ G.2) :
    e ∈ events ∧ IsSevere e ∧ e.agentId = G.1 := by
  obtain ⟨agent, group⟩ := G
  obtain ⟨-, rfl⟩ := mem_groups.mp h
  obtain ⟨e', he', heq⟩ := List.mem_map.mp (mem_valuesAt.mp he)
  obtain ⟨rfl, rfl⟩ := Prod.mk.inj heq
  obtain ⟨hmem, hsevere⟩ := List.mem_filter.mp he'
  rw [Bool.or_eq_true, decide_eq_true_iff, decide_eq_true_iff] at hsevere
  exact ⟨hmem, hsevere, rfl⟩

theorem mem_events_of_mem_technique {o : IterationOrder String}
    {G : String × List (StoredEvent S A)} (h : G ∈ groups o (techniqueEntries events))
    (he : e ∈ G.2) : e ∈ events := by
  obtain ⟨technique, group⟩ := G
  obtain ⟨-, rfl⟩ := mem_groups.mp h
  obtain ⟨e', he', heq⟩ := List.mem_flatMap.mp (mem_valuesAt.mp he)
  obtain ⟨m, -, heq⟩ := List.mem_map.mp heq
  obtain ⟨-, rfl⟩ := Prod.mk.inj heq
  exact he'

theorem placeEvents_clusterBurst {o : IterationOrder String} {G : String × List (StoredEvent S A)}
    (now : String) (hG : G ∈ groups o (severeEntries events))
    (h : eligible chrono 120 G = true) :
    PlaceEvents G.2 store (clusterBurst chrono now store G).1 := by
  obtain ⟨span, hspan⟩ := Option.isSome_iff_exists.mp h
  have hne : G.2 ≠ [] := by
    intro hnil
    have htwo := two_le_length_of_eligible h
    rw [groupIds, hnil, List.map_nil, List.length_nil] at htwo
    exact absurd htwo (by decide)
  rw [clusterBurst, hspan]
  dsimp only
  split_ifs with hcovered
  · exact .merged now
  · refine .created _ _ rfl fun agent => ?_
    rw [List.mem_singleton, List.mem_map]
    obtain ⟨e, he⟩ := List.exists_mem_of_ne_nil _ hne
    constructor
    · rintro rfl
      exact ⟨e, he, (agentId_of_mem_burst hG he).2.2⟩
    · rintro ⟨e', he', rfl⟩
      exact (agentId_of_mem_burst hG he').2.2

/-- An incident that covers a burst has one of its events, and so lists its agent. -/
theorem listed_of_burst {o : IterationOrder String} {G : String × List (StoredEvent S A)}
    (hG : G ∈ groups o (severeEntries events)) (hknown : ∀ e ∈ events, e ∈ known)
    (hstore : AllAccounted known store)
    (hfirst : store.incidents.find? (Incident.covers (groupIds G)) = some inc) (he : e ∈ G.2) :
    e.agentId ∈ inc.agentIds := by
  obtain ⟨-, id, hid, hidG⟩ := Incident.covers_iff.mp (List.find?_some hfirst)
  obtain ⟨g, hg, rfl⟩ := List.mem_map.mp hidG
  have hgknown := hknown g (agentId_of_mem_burst hG hg).1
  have hsame : e.agentId = g.agentId :=
    (agentId_of_mem_burst hG he).2.2.trans (agentId_of_mem_burst hG hg).2.2.symm
  rw [hsame]
  exact ((hstore inc (List.mem_of_find?_eq_some hfirst)).agents g.agentId).mpr
    ⟨g, hgknown, hid, rfl⟩

theorem clusterGroups_invariant {cluster : IncidentStore → String × List (StoredEvent S A) →
      IncidentStore × List UInt64} {entries : List (String × List (StoredEvent S A))}
    {I : IncidentStore → Prop}
    (hstep : ∀ store, ∀ G ∈ entries, I store → I (cluster store G).1) (h : I store) :
    I (clusterGroups cluster store entries).1 := by
  induction entries generalizing store with
  | nil => exact h
  | cons G entries ih =>
    exact ih (fun store H hH => hstep store H (List.mem_cons_of_mem G hH))
      (hstep store G List.mem_cons_self h)

/-! ## One call -/

theorem mem_techniqueClusters {o : IterationOrder String} {G : String × List (StoredEvent S A)}
    (hG : G ∈ groups o (techniqueEntries events)) (h : eligible chrono 300 G = true) :
    G ∈ techniqueClusters chrono events :=
  List.mem_filter.mpr ⟨(groups_perm o _).mem_iff.mp hG, h⟩

theorem allAccounted_clusterTechniques (orders : HashOrders) (now : String) (hnamed : Named known)
    (hknown : ∀ e ∈ events, e ∈ known) (hstore : AllAccounted known store)
    (hlisted : Listed (techniqueClusters chrono events) store)
    (hshared : ∀ G ∈ techniqueClusters chrono events, ∀ H ∈ techniqueClusters chrono events,
      ∀ id ∈ groupIds G, id ∈ groupIds H → ∀ e ∈ H.2, e.agentId ∈ G.2.map StoredEvent.agentId) :
    AllAccounted known (clusterGroups (clusterTechnique chrono orders now) store
      (groups orders.technique (techniqueEntries events))).1 := by
  refine (clusterGroups_invariant (I := fun store => AllAccounted known store ∧
    Listed (techniqueClusters chrono events) store) (fun store G hG h => ?_) ⟨hstore, hlisted⟩).1
  cases heligible : eligible chrono 300 G with
  | false =>
    rw [clusterTechnique_of_not_eligible orders now heligible]
    exact h
  | true =>
    have hcluster := mem_techniqueClusters hG heligible
    have hplaced : PlaceEvents G.2 store (clusterTechnique chrono orders now store G).1 :=
      placeEvents_clusterTechnique orders now heligible
    exact ⟨hplaced.allAccounted hnamed
      (fun e he => hknown e (mem_events_of_mem_technique hG he)) h.1 (h.2 G hcluster),
      hplaced.listed hcluster h.2 hshared⟩

theorem allAccounted_clusterBursts (o : IterationOrder String) (now : String)
    (hnamed : Named known) (hknown : ∀ e ∈ events, e ∈ known) (hstore : AllAccounted known store) :
    AllAccounted known (clusterGroups (clusterBurst chrono now) store
      (groups o (severeEntries events))).1 := by
  refine clusterGroups_invariant (I := AllAccounted known) (fun store G hG h => ?_) hstore
  cases heligible : eligible chrono 120 G with
  | false =>
    rw [clusterBurst_of_not_eligible now heligible]
    exact h
  | true =>
    exact (placeEvents_clusterBurst now hG heligible).allAccounted hnamed
      (fun e he => hknown e (agentId_of_mem_burst hG he).1) h
      fun inc hfirst e he => listed_of_burst hG hknown h hfirst he

/-- What was accounted for by the events known before is so by those of the clustering too. -/
theorem Incident.Accounted.append (h : inc.Accounted known) (hnamed : Named (known ++ events)) :
    inc.Accounted (known ++ events) := by
  constructor
  · intro agent
    refine (h.agents agent).trans ⟨?_, ?_⟩
    · rintro ⟨e, he, hid, hagent⟩
      exact ⟨e, List.mem_append_left _ he, hid, hagent⟩
    · rintro ⟨e, he, hid, rfl⟩
      obtain ⟨e', he', hsame⟩ := h.events e.id hid
      exact ⟨e', he', hsame ▸ hid, hnamed e' (List.mem_append_left _ he') e he hsame⟩
  · intro id hid
    obtain ⟨e, he, hsame⟩ := h.events id hid
    exact ⟨e, List.mem_append_left _ he, hsame⟩

theorem allAccounted_autoCluster {w : History S A} (orders : HashOrders) (now : Int)
    (h : AllAccounted w.events w.store) (hfits : Fits chrono w events) :
    AllAccounted (w.events ++ events) (autoCluster chrono orders w.store events now).1 := by
  have hstore : AllAccounted (w.events ++ events) w.store :=
    fun inc hinc => (h inc hinc).append hfits.named
  have hknown : ∀ e ∈ events, e ∈ w.events ++ events := fun e he => List.mem_append_right _ he
  unfold autoCluster
  split_ifs with hempty
  · exact hstore
  · exact allAccounted_clusterBursts _ _ hfits.named hknown
      (allAccounted_clusterTechniques _ _ hfits.named hknown hstore hfits.listed hfits.shared)

theorem gathers_autoCluster {w : History S A} (orders : HashOrders) (now : Int)
    (hfits : Fits chrono w events) : w.Gathers chrono (.cluster orders events now) := by
  intro e he e' he' hne hrelated
  have hplaced := placeAll_autoCluster chrono orders w.store events now
  rcases hfits.gathered e he e' he' hne hrelated with hbefore | ⟨G, hG, hid, hid'⟩
  · exact hplaced.together hbefore
  · refine hplaced.together_of_mem (List.mem_append.mpr ?_) hid hid'
    refine (List.mem_append.mp hG).imp (fun hG => ?_) fun hG => ?_
    · obtain ⟨hG, heligible⟩ := List.mem_filter.mp hG
      exact List.mem_map_of_mem
        (List.mem_filter.mpr ⟨(groups_perm _ _).mem_iff.mpr hG, heligible⟩)
    · obtain ⟨hG, heligible⟩ := List.mem_filter.mp hG
      exact List.mem_map_of_mem
        (List.mem_filter.mpr ⟨(groups_perm _ _).mem_iff.mpr hG, heligible⟩)

theorem allAccounted_update (h : AllAccounted known store) (id : UInt64)
    (assignee : Option String) (note : Option EventNote) (status : Option IncidentStatus)
    (now : String) : AllAccounted known (store.update id assignee note status now).1 := by
  unfold IncidentStore.update
  split_ifs
  · intro inc hinc
    rcases mem_updateFirst hinc with hinc | ⟨inc', hfirst, rfl⟩
    · exact h inc hinc
    · exact ⟨(h inc' (List.mem_of_find?_eq_some hfirst)).agents,
        (h inc' (List.mem_of_find?_eq_some hfirst)).events⟩
  · exact h

/-! ## Runs -/

namespace History

/-- **Clustering.**  Where all clusterings of a run fit the history before them, each brings its
related events together, and every incident lists the agents of its events at any time. -/
theorem clustering_complete_of_fits (chrono : Chrono) (calls : List (IncidentCall S A))
    (h : Along (after chrono) (Admissible chrono) start calls) :
    Throughout (after chrono) AgentsRight start calls ∧
      Along (after chrono) (Gathers chrono) start calls := by
  have hstep : ∀ (w : History S A) call, AllAccounted w.events w.store →
      w.Admissible chrono call → AllAccounted (w.after chrono call).events
        (w.after chrono call).store := by
    intro w call hw hcall
    cases call with
    | cluster orders events now => exact allAccounted_autoCluster orders now hw hcall
    | update id assignee note status now => exact allAccounted_update hw id assignee note status now
  have hstart : AllAccounted (start : History S A).events (start : History S A).store := by
    intro inc hinc
    exact absurd hinc List.not_mem_nil
  constructor
  · exact throughout_of_invariant hstep (fun w hw inc hinc => (hw inc hinc).agents) hstart h
  · refine along_of_invariant hstep (fun w call _ hcall => ?_) hstart h
    cases call with
    | cluster orders events now => exact gathers_autoCluster orders now hcall
    | update id assignee note status now => trivial

def plainOrders : HashOrders := ⟨insertionOrder, insertionOrder, insertionOrder, insertionOrder⟩

theorem fits_sharedTechnique {w : History Unit Unit} (hnamed : Named (w.events ++ sharedTechnique))
    (hagents : ∀ inc ∈ w.store.incidents, inc.agentIds = ["agent-1", "agent-2"]) :
    Fits firstHour w sharedTechnique := by
  have hclusters : techniqueClusters firstHour sharedTechnique = [("T1110", sharedTechnique)] := by
    decide
  refine ⟨hnamed, fun e he e' he' _ _ => .inr ⟨("T1110", sharedTechnique), ?_,
    List.mem_map_of_mem he, List.mem_map_of_mem he'⟩, fun G hG inc hfirst e he => ?_,
    fun G hG H hH id _ _ e he => ?_⟩
  · rw [hclusters]
    exact List.mem_cons_self
  · obtain rfl := List.mem_singleton.mp (hclusters ▸ hG)
    rw [hagents inc (List.mem_of_find?_eq_some hfirst)]
    have hlisted : ∀ e ∈ sharedTechnique, e.agentId ∈ ["agent-1", "agent-2"] := by decide
    exact hlisted e he
  · obtain rfl := List.mem_singleton.mp (hclusters ▸ hG)
    obtain rfl := List.mem_singleton.mp (hclusters ▸ hH)
    exact List.mem_map_of_mem he

/-- Two agents report one technique, and what they report is clustered twice. -/
theorem clustering_complete_shared :
    Throughout (after firstHour) AgentsRight start
        [.cluster plainOrders sharedTechnique 0, .cluster plainOrders sharedTechnique 0] ∧
      Along (after firstHour) (Gathers firstHour) start
        [.cluster plainOrders sharedTechnique 0, .cluster plainOrders sharedTechnique 0] := by
  have hnamed : Named (sharedTechnique ++ sharedTechnique) := by
    unfold Named
    decide
  have hagents : ∀ inc ∈ (autoCluster firstHour plainOrders ⟨[], 1⟩ sharedTechnique 0).1.incidents,
      inc.agentIds = ["agent-1", "agent-2"] := by
    decide
  refine clustering_complete_of_fits firstHour _ ⟨fits_sharedTechnique ?_ ?_, ?_, trivial⟩
  · exact fun e he e' he' => hnamed e (List.mem_append_left _ he) e' (List.mem_append_left _ he')
  · exact fun inc hinc => absurd hinc List.not_mem_nil
  · exact fits_sharedTechnique hnamed hagents

/-- Of three events of one technique the last comes an hour after the others. -/
def stragglers : List (StoredEvent Unit Unit) :=
  [eventOf 1 "agent-1" "1970-01-01T00:00:00+00:00" ["T1110"],
    eventOf 2 "agent-2" "1970-01-01T00:00:00+00:00" ["T1110"],
    eventOf 3 "agent-3" "1970-01-01T01:00:00+00:00" ["T1110"]]

/-- A third agent reports the technique at the time of the first. -/
def latecomer : List (StoredEvent Unit Unit) :=
  [eventOf 1 "agent-1" "1970-01-01T00:00:00+00:00" ["T1110"],
    eventOf 3 "agent-3" "1970-01-01T00:00:00+00:00" ["T1110"]]

/-- The first two of the events are in no incident, and the third agent is missing in the one that
gets its event. -/
theorem stragglers_apart_and_latecomer_missing :
    ¬ Along (after firstHour) (Gathers firstHour) start [.cluster plainOrders stragglers 0] ∧
      ¬ Throughout (after firstHour) AgentsRight start
        [.cluster plainOrders sharedTechnique 0, .cluster plainOrders latecomer 0] := by
  constructor
  · rintro ⟨hgathers, -⟩
    have hrelated : Related firstHour (stragglers.get ⟨0, by decide⟩)
        (stragglers.get ⟨1, by decide⟩) :=
      .technique ⟨"", "T1110", ""⟩ ⟨"", "T1110", ""⟩ List.mem_cons_self List.mem_cons_self rfl
        ⟨0, 0, rfl, rfl, by decide, by decide⟩
    obtain ⟨inc, hinc, -⟩ := hgathers _ (List.get_mem _ _) _ (List.get_mem _ _) (by decide) hrelated
    have hnone : (autoCluster firstHour plainOrders ⟨[], 1⟩ stragglers 0).1.incidents = [] := by
      decide
    exact absurd (hnone ▸ hinc) List.not_mem_nil
  · intro h
    have hmissing := (h.last _ (List.mem_of_getElem? (i := 0) rfl) "agent-3").mpr
      ⟨_, List.mem_of_getElem? (i := 3) rfl, by decide, rfl⟩
    exact absurd hmissing (by decide)

end History

end Wardex.Incidents
