import Wardex.Incidents.Placement
import Wardex.Lib.ClusterSteady

/-! When the incidents made of events depend on nothing but the events: not on the order of hash
maps, and not on whether the events were clustered before. -/

namespace Wardex.Incidents

open Wardex.Lib Wardex.Enrollment Wardex.Events

/-! ## The property -/

def eventSets (incidents : List Incident) : List (Set UInt64) :=
  incidents.map fun inc => {id | id ∈ inc.eventIds}

/-- The first `n` incidents have the same events in both stores, and the others are made of the same
events. -/
structure SameAssignment (n : ℕ) (store store' : IncidentStore) : Prop where
  kept : eventSets (store.incidents.take n) = eventSets (store'.incidents.take n)
  created : ∀ N, N ∈ eventSets (store.incidents.drop n) ↔ N ∈ eventSets (store'.incidents.drop n)

variable {S A : Type}

/-- Clustering the events has one result, it makes incidents of two events or more that no other
incident of the call has, and it does nothing when it is done again. -/
structure Stable (chrono : Chrono) (store : IncidentStore) (events : List (StoredEvent S A)) :
    Prop where
  orderFree : ∀ (orders orders' : HashOrders) (now now' : Int),
    SameAssignment store.incidents.length (autoCluster chrono orders store events now).1
      (autoCluster chrono orders' store events now').1
  separate : ∀ (orders : HashOrders) (now : Int),
    ((autoCluster chrono orders store events now).1.incidents.drop
      store.incidents.length).Pairwise fun inc inc' => ∀ id ∈ inc.eventIds, id ∉ inc'.eventIds
  proper : ∀ (orders : HashOrders) (now : Int),
    ∀ inc ∈ (autoCluster chrono orders store events now).1.incidents.drop store.incidents.length,
      inc.eventIds.Nodup ∧ 2 ≤ inc.eventIds.length
  idle : ∀ (orders orders' : HashOrders) (now now' : Int),
    (autoCluster chrono orders' (autoCluster chrono orders store events now).1 events
        now').1.incidents.map Incident.eventIds =
      (autoCluster chrono orders store events now).1.incidents.map Incident.eventIds

/-! ## The property, of clusters -/

variable {n : ℕ} {store store' store'' : IncidentStore} {gs hs : List (List UInt64)}

theorem getElem?_eventSets {incidents : List Incident} {i : ℕ} : (eventSets incidents)[i]? =
    incidents[i]?.map fun inc => {id | id ∈ inc.eventIds} := List.getElem?_map

/-- An incident of the store is still there after groups have been placed in two ways. -/
theorem PlaceAll.exists_grows_both (h : PlaceAll gs store store') (h' : PlaceAll hs store store'')
    {i : ℕ} (hi : i < store.incidents.length) : ∃ inc inc' inc'', store.incidents[i]? = some inc ∧
      store'.incidents[i]? = some inc' ∧ store''.incidents[i]? = some inc'' ∧
        inc.Grows inc' ∧ inc.Grows inc'' := by
  have hget := List.getElem?_eq_getElem hi
  obtain ⟨inc', hget', hgrows'⟩ := h.exists_grows hget
  obtain ⟨inc'', hget'', hgrows''⟩ := h'.exists_grows hget
  exact ⟨_, inc', inc'', hget, hget', hget'', hgrows', hgrows''⟩

theorem seats_of_getElem? {incidents : List Incident} {i : ℕ} {inc : Incident}
    (hget : incidents[i]? = some inc) (hactive : inc.isActive = true) :
    seats incidents i = {id | id ∈ inc.eventIds} := by
  ext id
  constructor
  · rintro ⟨inc', hget', -, hid⟩
    exact Option.some.inj (hget'.symm.trans hget) ▸ hid
  · exact fun hid => ⟨inc, hget, hactive, hid⟩

theorem seats_of_not_active {incidents : List Incident} {i : ℕ} {inc : Incident}
    (hget : incidents[i]? = some inc) (hactive : inc.isActive = false) :
    seats incidents i = ∅ := by
  refine Set.eq_empty_of_forall_notMem fun id => ?_
  rintro ⟨inc', hget', hactive', -⟩
  obtain rfl := Option.some.inj (hget'.symm.trans hget)
  exact Bool.eq_false_iff.mp hactive hactive'

theorem seats_of_none {incidents : List Incident} {i : ℕ} (hget : incidents[i]? = none) :
    seats incidents i = ∅ := by
  refine Set.eq_empty_of_forall_notMem fun id => ?_
  rintro ⟨inc, hget', -⟩
  exact Option.some_ne_none inc (hget'.symm.trans hget)

theorem sameAssignment_iff (h : PlaceAll gs store store') (h' : PlaceAll hs store store'') :
    SameAssignment store.incidents.length store' store'' ↔
      (clustersAt store.incidents.length store').old =
          (clustersAt store.incidents.length store'').old ∧
        ∀ N, N ∈ (clustersAt store.incidents.length store').new ↔
          N ∈ (clustersAt store.incidents.length store'').new := by
  have hkept : eventSets (store'.incidents.take store.incidents.length) =
        eventSets (store''.incidents.take store.incidents.length) ↔
      seats (store'.incidents.take store.incidents.length) =
        seats (store''.incidents.take store.incidents.length) := by
    rw [List.ext_getElem?_iff, funext_iff]
    refine forall_congr' fun i => ?_
    rw [getElem?_eventSets, getElem?_eventSets]
    by_cases hi : i < store.incidents.length
    · obtain ⟨inc, inc', inc'', hget, hget', hget'', hgrows', hgrows''⟩ :=
        h.exists_grows_both h' hi
      rw [← List.getElem?_take_of_lt hi] at hget' hget''
      rw [hget', hget'', Option.map_some, Option.map_some, Option.some_inj]
      cases hactive : inc.isActive with
      | true =>
        rw [seats_of_getElem? hget' (hgrows'.isActive.trans hactive),
          seats_of_getElem? hget'' (hgrows''.isActive.trans hactive)]
      | false =>
        rw [seats_of_not_active hget' (hgrows'.isActive.trans hactive),
          seats_of_not_active hget'' (hgrows''.isActive.trans hactive), hgrows'.frozen hactive,
          hgrows''.frozen hactive]
        exact iff_of_true rfl rfl
    · have hnone (s : IncidentStore) : (s.incidents.take store.incidents.length)[i]? = none :=
        List.getElem?_eq_none ((List.length_take_le _ _).trans (Nat.le_of_not_lt hi))
      rw [hnone, hnone, seats_of_none (hnone store'), seats_of_none (hnone store'')]
      exact iff_of_true rfl rfl
  exact ⟨fun hsame => ⟨hkept.mp hsame.kept, hsame.created⟩,
    fun hsame => ⟨hkept.mpr hsame.1, hsame.2⟩⟩

theorem separate_iff_apart : ((store.incidents.drop n).Pairwise fun inc inc' =>
    ∀ id ∈ inc.eventIds, id ∉ inc'.eventIds) ↔ Apart (clustersAt n store).new := by
  rw [Apart, clustersAt, List.pairwise_map]
  refine List.Pairwise.iff fun inc inc' => ⟨?_, fun hnot id hid hid' => hnot ⟨id, hid, hid'⟩⟩
  rintro hnot ⟨id, hid, hid'⟩
  exact hnot id hid hid'

/-- A second placing changes no list of events if and only if it changes no cluster. -/
theorem idle_iff (h : PlaceAll gs store store') (hn : n ≤ store.incidents.length) :
    store'.incidents.map Incident.eventIds = store.incidents.map Incident.eventIds ↔
      clustersAt n store' = clustersAt n store := by
  have htake (s : IncidentStore) {i : ℕ} (hi : i < n) :
      (s.incidents.take n)[i]? = s.incidents[i]? := List.getElem?_take_of_lt hi
  constructor
  · intro hsame
    have hids {i : ℕ} {inc inc' : Incident} (hget : store.incidents[i]? = some inc)
        (hget' : store'.incidents[i]? = some inc') : inc'.eventIds = inc.eventIds := by
      have hi := congrArg (fun l => l[i]?) hsame
      simp only [List.getElem?_map, hget, hget', Option.map_some, Option.some_inj] at hi
      exact hi
    have hold : seats (store'.incidents.take n) = seats (store.incidents.take n) := by
      funext i
      by_cases hi : i < n
      · obtain ⟨inc, hget⟩ : ∃ inc, store.incidents[i]? = some inc :=
          ⟨_, List.getElem?_eq_getElem (hi.trans_le hn)⟩
        obtain ⟨inc', hget', hgrows⟩ := h.exists_grows hget
        have heq := hids hget hget'
        rw [← htake store hi] at hget
        rw [← htake store' hi] at hget'
        cases hactive : inc.isActive with
        | true =>
          rw [seats_of_getElem? hget hactive,
            seats_of_getElem? hget' (hgrows.isActive.trans hactive), heq]
        | false =>
          rw [seats_of_not_active hget hactive,
            seats_of_not_active hget' (hgrows.isActive.trans hactive)]
      · have hnone (s : IncidentStore) : (s.incidents.take n)[i]? = none :=
          List.getElem?_eq_none ((List.length_take_le _ _).trans (Nat.le_of_not_lt hi))
        rw [seats_of_none (hnone store), seats_of_none (hnone store')]
    have hnew (s : IncidentStore) : (clustersAt n s).new =
        ((s.incidents.map Incident.eventIds).drop n).map fun ids => {id | id ∈ ids} := by
      rw [← List.map_drop, List.map_map]
      rfl
    exact Clusters.ext hold (by rw [hnew, hnew, hsame])
  · intro hsame
    have hnew := congrArg Clusters.new hsame
    have hlength : store'.incidents.length = store.incidents.length := by
      have hcount := congrArg List.length hnew
      rw [clustersAt, clustersAt, List.length_map, List.length_map, List.length_drop,
        List.length_drop] at hcount
      have hle := h.length_le
      omega
    refine List.ext_getElem? fun i => ?_
    rw [List.getElem?_map, List.getElem?_map]
    by_cases hi : i < store.incidents.length
    · have hget := List.getElem?_eq_getElem hi
      obtain ⟨inc', hget', hgrows⟩ := h.exists_grows hget
      rw [hget, hget', Option.map_some, Option.map_some, Option.some_inj]
      cases hactive : store.incidents[i].isActive with
      | false => exact hgrows.frozen hactive
      | true =>
        have hactive' := hgrows.isActive.trans hactive
        have hset : ({id | id ∈ inc'.eventIds} : Set UInt64) =
            {id | id ∈ store.incidents[i].eventIds} := by
          by_cases hin : i < n
          · have hseat : seats (store'.incidents.take n) i = seats (store.incidents.take n) i :=
              congrFun (congrArg Clusters.old hsame) i
            rw [← htake store hin] at hget
            rw [← htake store' hin] at hget'
            rwa [seats_of_getElem? hget' hactive', seats_of_getElem? hget hactive] at hseat
          · have hseat := congrArg (fun l => l[i - n]?) hnew
            have hback : n + (i - n) = i := Nat.add_sub_of_le (Nat.le_of_not_lt hin)
            simpa only [clustersAt, List.getElem?_map, List.getElem?_drop, hback, hget, hget',
              Option.map_some, Option.some_inj] using hseat
        exact hgrows.eventIds_eq fun id hid => hset.subset hid
    · rw [List.getElem?_eq_none (Nat.le_of_not_lt hi),
        List.getElem?_eq_none (hlength ▸ Nat.le_of_not_lt hi)]

/-! ## The groups -/

variable {chrono : Chrono} {events : List (StoredEvent S A)}

theorem two_le_length_of_mem_techniqueGroups {o : IterationOrder String} {ids : List UInt64}
    (h : ids ∈ techniqueGroups chrono o events) : 2 ≤ ids.length := by
  obtain ⟨entry, hentry, rfl⟩ := List.mem_map.mp h
  exact two_le_length_of_eligible (List.mem_filter.mp hentry).2

theorem two_le_length_of_mem_burstGroups {o : IterationOrder String} {ids : List UInt64}
    (h : ids ∈ burstGroups chrono o events) : 2 ≤ ids.length := by
  obtain ⟨entry, hentry, rfl⟩ := List.mem_map.mp h
  exact two_le_length_of_eligible (List.mem_filter.mp hentry).2

/-- A burst is made of the severe events of an agent, as they are listed. -/
theorem exists_agent_of_mem_burstGroups {o : IterationOrder String} {ids : List UInt64}
    (h : ids ∈ burstGroups chrono o events) : ∃ agent, ids = ((events.filter fun e =>
      e.alert.level = "Critical" || e.alert.level = "Severe").filter fun e =>
        e.agentId = agent).map StoredEvent.id := by
  obtain ⟨⟨agent, group⟩, hentry, rfl⟩ := List.mem_map.mp h
  obtain rfl := (mem_groups.mp (List.mem_filter.mp hentry).1).2
  rw [groupIds, severeEntries, valuesAt_map]
  exact ⟨agent, rfl⟩

theorem nodup_of_mem_burstGroups (hdistinct : (events.map StoredEvent.id).Nodup)
    {o : IterationOrder String} {ids : List UInt64} (h : ids ∈ burstGroups chrono o events) :
    ids.Nodup := by
  obtain ⟨agent, rfl⟩ := exists_agent_of_mem_burstGroups h
  exact hdistinct.sublist ((List.filter_sublist.trans List.filter_sublist).map _)

theorem distinct_burstGroups (hdistinct : (events.map StoredEvent.id).Nodup)
    (o : IterationOrder String) :
    Distinct ((burstGroups chrono o events).map fun ids => {id | id ∈ ids}) := by
  intro B hB B' hB' hmeets
  obtain ⟨ids, hids, rfl⟩ := List.mem_map.mp hB
  obtain ⟨ids', hids', rfl⟩ := List.mem_map.mp hB'
  obtain ⟨agent, rfl⟩ := exists_agent_of_mem_burstGroups hids
  obtain ⟨agent', rfl⟩ := exists_agent_of_mem_burstGroups hids'
  obtain ⟨id, hid, hid'⟩ := hmeets
  obtain ⟨e, he, rfl⟩ := List.mem_map.mp hid
  obtain ⟨e', he', heq⟩ := List.mem_map.mp hid'
  obtain ⟨hsevere, hagent⟩ := List.mem_filter.mp he
  obtain ⟨hsevere', hagent'⟩ := List.mem_filter.mp he'
  obtain rfl : e' = e := List.inj_on_of_nodup_map hdistinct (List.mem_filter.mp hsevere').1
    (List.mem_filter.mp hsevere).1 heq
  have hsame : agent = agent' := (of_decide_eq_true hagent).symm.trans (of_decide_eq_true hagent')
  rw [hsame]

variable (chrono) (events)

def techniqueSets (o : IterationOrder String) : List (Set UInt64) :=
  (techniqueGroups chrono o events).map fun ids => {id | id ∈ ids}

def burstSets (o : IterationOrder String) : List (Set UInt64) :=
  (burstGroups chrono o events).map fun ids => {id | id ∈ ids}

theorem techniqueGroups_perm (o : IterationOrder String) :
    (techniqueGroups chrono o events).Perm (techniqueGroups chrono insertionOrder events) :=
  ((groups_perm o _).filter _).map _

theorem techniqueSets_perm (o : IterationOrder String) :
    (techniqueSets chrono events o).Perm (techniqueSets chrono events insertionOrder) :=
  (techniqueGroups_perm chrono events o).map _

theorem burstSets_perm (o : IterationOrder String) :
    (burstSets chrono events o).Perm (burstSets chrono events insertionOrder) :=
  (((groups_perm o _).filter _).map _).map _

variable {chrono} {events} {T D : List (Set UInt64)}

theorem exists_techniqueSets_eq (h : T.Perm (techniqueSets chrono events insertionOrder)) :
    ∃ o, techniqueSets chrono events o = T := by
  rw [techniqueSets, techniqueGroups, List.map_map] at h
  obtain ⟨o, ho⟩ := exists_order_groups _ _ _ h
  refine ⟨o, ?_⟩
  rw [techniqueSets, techniqueGroups, List.map_map, ho]

theorem exists_burstSets_eq (h : D.Perm (burstSets chrono events insertionOrder)) :
    ∃ o, burstSets chrono events o = D := by
  rw [burstSets, burstGroups, List.map_map] at h
  obtain ⟨o, ho⟩ := exists_order_groups _ _ _ h
  refine ⟨o, ?_⟩
  rw [burstSets, burstGroups, List.map_map, ho]

theorem nonempty_of_two_le {ids : List UInt64} (h : 2 ≤ ids.length) :
    ({id | id ∈ ids} : Set UInt64).Nonempty :=
  List.exists_mem_of_length_pos (Nat.lt_of_lt_of_le Nat.zero_lt_two h)

theorem nonempty_of_mem_techniqueSets {o : IterationOrder String} {G : Set UInt64}
    (h : G ∈ techniqueSets chrono events o) : G.Nonempty := by
  obtain ⟨ids, hids, rfl⟩ := List.mem_map.mp h
  exact nonempty_of_two_le (two_le_length_of_mem_techniqueGroups hids)

theorem nonempty_of_mem_burstSets {o : IterationOrder String} {G : Set UInt64}
    (h : G ∈ burstSets chrono events o) : G.Nonempty := by
  obtain ⟨ids, hids, rfl⟩ := List.mem_map.mp h
  exact nonempty_of_two_le (two_le_length_of_mem_burstGroups hids)

/-! ## A call as a run of clustering -/

theorem clusters_autoCluster_of_fresh (orders : HashOrders) (now : Int) (hfresh : Fresh n store) :
    Fresh n (autoCluster chrono orders store events now).1 ∧
      clustersAt n (autoCluster chrono orders store events now).1 = (clustersAt n store).run
        (techniqueSets chrono events orders.technique ++ burstSets chrono events orders.agent) := by
  obtain ⟨hfresh', heq⟩ :=
    (placeAll_autoCluster chrono orders store events now).clustersAt hfresh
  rw [List.map_append] at heq
  exact ⟨hfresh', heq⟩

theorem clustersAt_length (store : IncidentStore) :
    clustersAt store.incidents.length store = ⟨seats store.incidents, []⟩ := by
  rw [clustersAt, List.take_length, List.drop_length, List.map_nil]

theorem clusters_autoCluster (chrono : Chrono) (store : IncidentStore)
    (events : List (StoredEvent S A)) (orders : HashOrders) (now : Int) :
    Fresh store.incidents.length (autoCluster chrono orders store events now).1 ∧
      clustersAt store.incidents.length (autoCluster chrono orders store events now).1 =
        Clusters.run ⟨seats store.incidents, []⟩
          (techniqueSets chrono events orders.technique ++
            burstSets chrono events orders.agent) := by
  rw [← clustersAt_length]
  exact clusters_autoCluster_of_fresh orders now (fresh_length store)

theorem Stable.steady (h : Stable chrono store events) :
    Steady (seats store.incidents) (techniqueSets chrono events insertionOrder)
      (burstSets chrono events insertionOrder) := by
  have hcall {T D : List (Set UInt64)} (hT : T.Perm (techniqueSets chrono events insertionOrder))
      (hD : D.Perm (burstSets chrono events insertionOrder)) : ∃ orders : HashOrders,
      techniqueSets chrono events orders.technique = T ∧
        burstSets chrono events orders.agent = D := by
    obtain ⟨o, ho⟩ := exists_techniqueSets_eq hT
    obtain ⟨o', ho'⟩ := exists_burstSets_eq hD
    exact ⟨⟨o, o', insertionOrder, insertionOrder⟩, ho, ho'⟩
  have hsame {T T' D D' : List (Set UInt64)}
      (hT : T.Perm (techniqueSets chrono events insertionOrder))
      (hT' : T'.Perm (techniqueSets chrono events insertionOrder))
      (hD : D.Perm (burstSets chrono events insertionOrder))
      (hD' : D'.Perm (burstSets chrono events insertionOrder)) :
      (Clusters.run ⟨seats store.incidents, []⟩ (T ++ D)).old =
          (Clusters.run ⟨seats store.incidents, []⟩ (T' ++ D')).old ∧
        ∀ N, N ∈ (Clusters.run ⟨seats store.incidents, []⟩ (T ++ D)).new ↔
          N ∈ (Clusters.run ⟨seats store.incidents, []⟩ (T' ++ D')).new := by
    obtain ⟨orders, rfl, rfl⟩ := hcall hT hD
    obtain ⟨orders', rfl, rfl⟩ := hcall hT' hD'
    have hassigned := (sameAssignment_iff (placeAll_autoCluster chrono orders store events 0)
      (placeAll_autoCluster chrono orders' store events 0)).mp (h.orderFree orders orders' 0 0)
    rwa [(clusters_autoCluster chrono store events orders 0).2,
      (clusters_autoCluster chrono store events orders' 0).2] at hassigned
  refine ⟨fun T T' D D' hT hT' hD hD' => (hsame hT hT' hD hD').1,
    fun T T' D D' hT hT' hD hD' N hN => ((hsame hT hT' hD hD').2 N).mp hN, ?_, ?_⟩
  · intro T D hT hD
    obtain ⟨orders, rfl, rfl⟩ := hcall hT hD
    have hapart := separate_iff_apart.mp (h.separate orders 0)
    rwa [(clusters_autoCluster chrono store events orders 0).2] at hapart
  · intro T T' D D' hT hT' hD hD'
    obtain ⟨orders, rfl, rfl⟩ := hcall hT hD
    obtain ⟨orders', rfl, rfl⟩ := hcall hT' hD'
    obtain ⟨hfresh, hrun⟩ := clusters_autoCluster chrono store events orders 0
    have hidle := (idle_iff (placeAll_autoCluster chrono orders' _ events 0) hfresh.1).mp
      (h.idle orders orders' 0 0)
    rwa [(clusters_autoCluster_of_fresh orders' 0 hfresh).2, hrun] at hidle

/-- What the incidents of a call hold is proper if the technique groups that no incident covers list
no event twice. -/
theorem proper_iff (hdistinct : (events.map StoredEvent.id).Nodup) :
    (∀ (orders : HashOrders) (now : Int), ∀ inc ∈ (autoCluster chrono orders store events
        now).1.incidents.drop store.incidents.length,
      inc.eventIds.Nodup ∧ 2 ≤ inc.eventIds.length) ↔
      ∀ ids ∈ techniqueGroups chrono insertionOrder events, store.isCovered ids = false →
        ids.Nodup := by
  constructor
  · intro h ids hids hfree
    -- the group comes first, and the call makes an incident of it
    obtain ⟨o, ho⟩ := exists_order_groups (techniqueEntries events) (eligible chrono 300) groupIds
      (List.perm_cons_erase hids).symm
    have hplaced := placeAll_autoCluster chrono ⟨o, insertionOrder, insertionOrder, insertionOrder⟩
      store events 0
    rw [techniqueGroups, ho, List.cons_append] at hplaced
    have hproper := h ⟨o, insertionOrder, insertionOrder, insertionOrder⟩ 0
    generalize (autoCluster chrono ⟨o, insertionOrder, insertionOrder, insertionOrder⟩ store events
      0).1 = store' at hplaced hproper
    cases hplaced with
    | cons first rest =>
      cases first with
      | merged now hcovered => exact absurd hcovered (Bool.eq_false_iff.mp hfree)
      | created inc nextId _ hactive hids =>
        obtain ⟨inc', hget', hgrows⟩ := rest.exists_grows (i := store.incidents.length)
          List.getElem?_concat_length
        have hmem : inc' ∈ store'.incidents.drop store.incidents.length := by
          refine List.mem_of_getElem? (i := 0) ?_
          rw [List.getElem?_drop, Nat.add_zero, hget']
        obtain ⟨extra, heq, -, -⟩ := hgrows.added
        have hnodup := (hproper inc' hmem).1
        rw [heq, hids] at hnodup
        exact hnodup.of_append_left
  · intro h orders now inc hinc
    obtain ⟨i, hget⟩ := List.mem_iff_getElem?.mp hinc
    rw [List.getElem?_drop] at hget
    rcases (placeAll_autoCluster chrono orders store events now).grows_or_made hget with
      ⟨inc', hget', -⟩ | ⟨ids, hids, hfree, made, hmade, -, hgrows⟩
    · exact absurd (List.getElem?_eq_some_iff.mp hget').1 (Nat.not_lt.mpr (Nat.le_add_right _ _))
    · have hboth : ids.Nodup ∧ 2 ≤ ids.length := by
        rcases List.mem_append.mp hids with hids | hids
        · exact ⟨h ids ((techniqueGroups_perm chrono events _).mem_iff.mp hids) hfree,
            two_le_length_of_mem_techniqueGroups hids⟩
        · exact ⟨nodup_of_mem_burstGroups hdistinct hids, two_le_length_of_mem_burstGroups hids⟩
      rw [← hmade] at hboth
      exact ⟨hgrows.nodup hboth.1, hboth.2.trans hgrows.length_le⟩

theorem stable_iff_steady (hdistinct : (events.map StoredEvent.id).Nodup) :
    Stable chrono store events ↔
      Steady (seats store.incidents) (techniqueSets chrono events insertionOrder)
          (burstSets chrono events insertionOrder) ∧
        ∀ ids ∈ techniqueGroups chrono insertionOrder events, store.isCovered ids = false →
          ids.Nodup := by
  constructor
  · exact fun h => ⟨h.steady, (proper_iff hdistinct).mp h.proper⟩
  · rintro ⟨h, hproper⟩
    have hT (orders : HashOrders) := techniqueSets_perm chrono events orders.technique
    have hD (orders : HashOrders) := burstSets_perm chrono events orders.agent
    refine ⟨fun orders orders' now now' => ?_, fun orders now => ?_,
      (proper_iff hdistinct).mpr hproper, fun orders orders' now now' => ?_⟩
    · rw [sameAssignment_iff (placeAll_autoCluster chrono orders store events now)
        (placeAll_autoCluster chrono orders' store events now'),
        (clusters_autoCluster chrono store events orders now).2,
        (clusters_autoCluster chrono store events orders' now').2]
      exact ⟨h.old _ _ _ _ (hT orders) (hT orders') (hD orders) (hD orders'), fun N =>
        ⟨h.new _ _ _ _ (hT orders) (hT orders') (hD orders) (hD orders') N,
          h.new _ _ _ _ (hT orders') (hT orders) (hD orders') (hD orders) N⟩⟩
    · rw [separate_iff_apart, (clusters_autoCluster chrono store events orders now).2]
      exact h.apart _ _ (hT orders) (hD orders)
    · obtain ⟨hfresh, hrun⟩ := clusters_autoCluster chrono store events orders now
      rw [idle_iff (placeAll_autoCluster chrono orders' _ events now') hfresh.1,
        (clusters_autoCluster_of_fresh orders' now' hfresh).2, hrun]
      exact h.idle _ _ _ _ (hT orders) (hT orders') (hD orders) (hD orders')

def eventOf (id : UInt64) (agentId receivedAt : String) (techniques : List String) :
    StoredEvent Unit Unit where
  id := id
  agentId := agentId
  receivedAt := receivedAt
  alert := ⟨(), "Elevated", [], techniques.map fun technique => ⟨"", technique, ""⟩, ()⟩
  correlated := false
  triage := EventTriage.default receivedAt

/-- Two agents report one technique. -/
def sharedTechnique : List (StoredEvent Unit Unit) :=
  [eventOf 1 "agent-1" "1970-01-01T00:00:00+00:00" ["T1110"],
    eventOf 2 "agent-2" "1970-01-01T00:00:00+00:00" ["T1110"]]

/-- The events of two techniques, two of which share a third one. -/
def bridgedTechniques : List (StoredEvent Unit Unit) :=
  [eventOf 1 "agent-1" "1970-01-01T00:00:00+00:00" ["T1110"],
    eventOf 2 "agent-2" "1970-01-01T00:00:00+00:00" ["T1021"],
    eventOf 3 "agent-3" "1970-01-01T00:00:00+00:00" ["T1110", "T1078"],
    eventOf 4 "agent-4" "1970-01-01T00:00:00+00:00" ["T1021", "T1078"]]

end Wardex.Incidents
