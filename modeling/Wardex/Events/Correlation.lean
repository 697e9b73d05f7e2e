import Wardex.Events.Store
import Wardex.Lib.Run

/-! Which events the correlation marks, and which have a partner: an event of another agent with
their reason, received within the window. -/

namespace Wardex.Events

open Wardex.Lib Wardex.Enrollment

variable {S A : Type} (env : StoreEnv S)

/-! ## Partners -/

/-- The events were received at most `window` seconds apart. -/
def ReceivedWithin (window : Int) (e p : StoredEvent S A) : Prop :=
  ∃ t u, env.chrono.parse e.receivedAt = some t ∧ env.chrono.parse p.receivedAt = some u ∧
    t - u ≤ window * 1000000000 ∧ u - t ≤ window * 1000000000

structure Partner (window : Int) (e p : StoredEvent S A) : Prop where
  agent : p.agentId ≠ e.agentId
  reason : e.primaryReason ≠ ""
  same : p.primaryReason = e.primaryReason
  received : ReceivedWithin env window e p

/-- The event store, and all events it held after a push, as they were then. -/
structure CorrelationWorld (S A : Type) where
  store : EventStore S A
  held : List (StoredEvent S A)

namespace CorrelationWorld

def start (maxEvents : Nat) : CorrelationWorld S A := ⟨.new maxEvents, []⟩

def after (w : CorrelationWorld S A) (ingestion : EventBatch S A × Int) : CorrelationWorld S A where
  store := (w.store.ingest env ingestion.1 ingestion.2).1
  held := w.held ++ (w.store.push env ingestion.1 ingestion.2).events

/-- An event is marked if and only if a partner of it has been held. -/
def Exact (w : CorrelationWorld S A) : Prop :=
  ∀ e ∈ w.store.events, e.correlated = true ↔
    ∃ p ∈ w.held, Partner env w.store.correlationWindowSecs e p

end CorrelationWorld

/-! ## What is marked -/

/-- The events not yet correlated that have a reason. -/
def uncorrelated (events : List (StoredEvent S A)) (reason : String) : List (StoredEvent S A) :=
  events.filter fun e => !e.correlated && e.primaryReason = reason

def timestamps (group : List (StoredEvent S A)) : List Int :=
  group.filterMap fun e => (env.chrono.parse e.receivedAt).map timestamp

/-- The events come from two agents, and all of them within the window. -/
structure Coinciding (window : Int) (group : List (StoredEvent S A)) : Prop where
  agents : ∃ e ∈ group, ∃ p ∈ group, e.agentId ≠ p.agentId
  dated : 2 ≤ (timestamps env group).length
  span : ∀ s ∈ timestamps env group, ∀ t ∈ timestamps env group, s - t ≤ window

variable {env} {window : Int} {reason : String} {group events : List (StoredEvent S A)}
  {e e' : StoredEvent S A} {i : Nat}

theorem isSome_correlationMatch_iff :
    (EventStore.correlationMatch env window reason group).isSome ↔
      Coinciding env window group := by
  have hagents : 2 ≤ (env.order.order (group.map StoredEvent.agentId).dedup).length ↔
      ∃ e ∈ group, ∃ p ∈ group, e.agentId ≠ p.agentId := by
    rw [(env.order.perm _).length_eq, two_le_length_dedup_iff]
    simp only [List.mem_map, exists_exists_and_eq_and]
  unfold EventStore.correlationMatch
  dsimp only
  rw [← timestamps]
  split_ifs with hgroup hag hdated
  · refine iff_of_false nofun fun h => ?_
    have hdistinct := hagents.mpr h.agents
    rw [(env.order.perm _).length_eq] at hdistinct
    have hle := (List.dedup_sublist (group.map StoredEvent.agentId)).length_le
    rw [List.length_map] at hle
    omega
  · refine iff_of_false nofun fun h => hag.not_ge (hagents.mpr h.agents)
  · exact iff_of_false nofun fun h => hdated.not_ge h.dated
  · have hne : timestamps env group ≠ [] := by
      rintro hnil
      simp [hnil] at hdated
    obtain ⟨lo, hlo⟩ := Option.isSome_iff_exists.mp (List.isSome_min?_of_ne_nil hne)
    obtain ⟨hi, hhi⟩ := Option.isSome_iff_exists.mp (List.isSome_max?_of_ne_nil hne)
    rw [hlo, hhi]
    obtain ⟨hlomem, hlole⟩ := List.min?_eq_some_iff.mp hlo
    obtain ⟨hhimem, hhile⟩ := List.max?_eq_some_iff.mp hhi
    dsimp only
    split_ifs with hspan
    · refine iff_of_true rfl ⟨hagents.mp (not_lt.mp hag), not_lt.mp hdated, fun s hs t ht => ?_⟩
      have hsle := hhile s hs
      have htle := hlole t ht
      omega
    · exact iff_of_false nofun fun h => hspan (h.span hi hhimem lo hlomem)

/-- The reports behind two events are the same. -/
structure StoredEvent.SameReport (e e' : StoredEvent S A) : Prop where
  agentId : e'.agentId = e.agentId
  receivedAt : e'.receivedAt = e.receivedAt
  reasons : e'.alert.reasons = e.alert.reasons

theorem StoredEvent.SameReport.refl (e : StoredEvent S A) : e.SameReport e := ⟨rfl, rfl, rfl⟩

theorem StoredEvent.SameReport.trans {e'' : StoredEvent S A} (h : e.SameReport e')
    (h' : e'.SameReport e'') : e.SameReport e'' :=
  ⟨h'.agentId.trans h.agentId, h'.receivedAt.trans h.receivedAt, h'.reasons.trans h.reasons⟩

theorem StoredEvent.sameReport_markCorrelated (env : StoreEnv S) (e : StoredEvent S A) :
    e.SameReport (e.markCorrelated env) := ⟨rfl, rfl, rfl⟩

theorem getElem?_markAt (indices : List Nat) :
    (EventStore.markAt env events indices)[i]? =
      if i ∈ indices then events[i]?.map (StoredEvent.markCorrelated env) else events[i]? := by
  rw [EventStore.markAt, List.getElem?_mapIdx]
  split_ifs with hi
  · rfl
  · exact Option.map_id'

theorem getElem?_correlateGroups_of_not_mem {gs : List (String × List (Nat × StoredEvent S A))}
    (h : ∀ g ∈ gs, i ∉ g.2.map Prod.fst) :
    (EventStore.correlateGroups env window events gs).1[i]? = events[i]? := by
  induction gs generalizing events with
  | nil => rfl
  | cons g gs ih =>
    have hrest := fun g' hg' => h g' (List.mem_cons_of_mem g hg')
    rw [EventStore.correlateGroups]
    cases EventStore.correlationMatch env window g.1 (g.2.map Prod.snd) with
    | none => exact ih hrest
    | some found =>
      refine (ih hrest).trans ?_
      rw [getElem?_markAt, if_neg (h g List.mem_cons_self)]

/-- An index under one reason only is decided by the group of that reason. -/
theorem getElem?_correlateGroups {gs : List (String × List (Nat × StoredEvent S A))}
    {g : String × List (Nat × StoredEvent S A)} (hnodup : (gs.map Prod.fst).Nodup)
    (hreason : ∀ g' ∈ gs, i ∈ g'.2.map Prod.fst → g'.1 = g.1) (hg : g ∈ gs)
    (hi : i ∈ g.2.map Prod.fst) :
    (EventStore.correlateGroups env window events gs).1[i]? =
      if (EventStore.correlationMatch env window g.1 (g.2.map Prod.snd)).isSome then
        events[i]?.map (StoredEvent.markCorrelated env)
      else events[i]? := by
  induction gs generalizing events with
  | nil => exact absurd hg List.not_mem_nil
  | cons first gs ih =>
    obtain ⟨hfirst, hnodup⟩ := List.nodup_cons.mp hnodup
    rw [EventStore.correlateGroups]
    rcases List.mem_cons.mp hg with rfl | hg
    · have hrest : ∀ g' ∈ gs, i ∉ g'.2.map Prod.fst := by
        intro g' hg' hi'
        have hkey := hreason g' (List.mem_cons_of_mem g hg') hi'
        exact hfirst (hkey ▸ List.mem_map_of_mem hg')
      cases EventStore.correlationMatch env window g.1 (g.2.map Prod.snd) with
      | none => exact getElem?_correlateGroups_of_not_mem hrest
      | some found =>
        refine (getElem?_correlateGroups_of_not_mem hrest).trans ?_
        rw [getElem?_markAt, if_pos hi, Option.isSome_some, if_pos rfl]
    · have hother : i ∉ first.2.map Prod.fst := by
        intro hi'
        have hkey := hreason first List.mem_cons_self hi'
        exact hfirst (hkey ▸ List.mem_map_of_mem hg)
      have hreason' := fun g' hg' => hreason g' (List.mem_cons_of_mem first hg')
      cases EventStore.correlationMatch env window first.1 (first.2.map Prod.snd) with
      | none => exact ih hnodup hreason' hg
      | some found =>
        refine (ih hnodup hreason' hg).trans ?_
        rw [getElem?_markAt, if_neg hother]

/-! ## Groups -/

theorem mem_byReason :
    (reason, i, e) ∈ EventStore.byReason events ↔
      events[i]? = some e ∧ e.correlated = false ∧ e.primaryReason ≠ "" ∧
        e.primaryReason = reason := by
  rw [EventStore.byReason, List.mem_map]
  constructor
  · rintro ⟨⟨f, j⟩, hmem, heq⟩
    obtain ⟨hmem, hpending⟩ := List.mem_filter.mp hmem
    obtain ⟨rfl, hpair⟩ := Prod.mk.inj heq
    obtain ⟨rfl, rfl⟩ := Prod.mk.inj hpair
    obtain ⟨huncorrelated, hreason⟩ := Bool.and_eq_true_iff.mp hpending
    exact ⟨List.mem_zipIdx_iff_getElem?.mp hmem, by simpa using huncorrelated,
      of_decide_eq_true hreason, rfl⟩
  · rintro ⟨hget, huncorrelated, hreason, rfl⟩
    refine ⟨(e, i), List.mem_filter.mpr ⟨List.mem_zipIdx_iff_getElem?.mpr hget, ?_⟩, rfl⟩
    exact Bool.and_eq_true_iff.mpr ⟨by simpa using huncorrelated, decide_eq_true hreason⟩

theorem valuesAt_byReason (hreason : reason ≠ "") :
    (valuesAt (EventStore.byReason events) reason).map Prod.snd = uncorrelated events reason := by
  have hpending (e : StoredEvent S A) :
      (decide (e.primaryReason = reason) && (!e.correlated && e.primaryReason ≠ "")) =
        (!e.correlated && e.primaryReason = reason) := by
    by_cases h : e.primaryReason = reason
    · simp [h, hreason]
    · simp [h]
  rw [valuesAt, EventStore.byReason, List.filter_map, List.filter_filter, List.map_map,
    List.map_map]
  change (events.zipIdx.filter fun p => decide (p.1.primaryReason = reason) &&
    (!p.1.correlated && p.1.primaryReason ≠ "")).map Prod.fst = _
  simp only [hpending]
  conv_rhs => rw [uncorrelated, ← List.zipIdx_map_fst 0 events, List.filter_map]
  rfl

/-- The event is not yet correlated, and the uncorrelated events with its reason coincide. -/
structure EventStore.Marks (env : StoreEnv S) (store : EventStore S A) (e : StoredEvent S A) :
    Prop where
  pending : e.correlated = false
  reason : e.primaryReason ≠ ""
  coinciding : Coinciding env store.correlationWindowSecs
    (uncorrelated store.events e.primaryReason)

variable {store : EventStore S A}

theorem group_of_mem {o : IterationOrder String} {g : String × List (Nat × StoredEvent S A)}
    (h : events[i]? = some e) (hg : g ∈ groups o (EventStore.byReason events))
    (hi : i ∈ g.2.map Prod.fst) :
    g = (e.primaryReason, valuesAt (EventStore.byReason events) e.primaryReason) ∧
      e.correlated = false ∧ e.primaryReason ≠ "" := by
  obtain ⟨reason, group⟩ := g
  obtain ⟨-, rfl⟩ := mem_groups.mp hg
  obtain ⟨⟨j, f⟩, hf, rfl⟩ := List.mem_map.mp hi
  obtain ⟨hget, hpending, hreason, rfl⟩ := mem_byReason.mp (mem_valuesAt.mp hf)
  obtain rfl := Option.some.inj (h.symm.trans hget)
  exact ⟨rfl, hpending, hreason⟩

/-- The members of a group are marked if all of it coincides. -/
theorem getElem?_correlate_of_mem {g : String × List (Nat × StoredEvent S A)}
    (h : store.events[i]? = some e) (hg : g ∈ groups env.order (EventStore.byReason store.events))
    (hi : i ∈ g.2.map Prod.fst) :
    (store.correlate env).1.events[i]? =
      if (EventStore.correlationMatch env store.correlationWindowSecs g.1
        (g.2.map Prod.snd)).isSome then some (e.markCorrelated env) else some e := by
  have hreason : ∀ g' ∈ groups env.order (EventStore.byReason store.events),
      i ∈ g'.2.map Prod.fst → g'.1 = g.1 := by
    intro g' hg' hi'
    rw [(group_of_mem h hg' hi').1, (group_of_mem h hg hi).1]
  refine (getElem?_correlateGroups (nodup_groups _ _) hreason hg hi).trans ?_
  rw [h, Option.map_some]

theorem getElem?_correlate_of_marks (h : store.events[i]? = some e) (hmarks : store.Marks env e) :
    (store.correlate env).1.events[i]? = some (e.markCorrelated env) := by
  have hentry := mem_byReason.mpr ⟨h, hmarks.pending, hmarks.reason, rfl⟩
  have hmatch : (EventStore.correlationMatch env store.correlationWindowSecs e.primaryReason
      ((valuesAt (EventStore.byReason store.events) e.primaryReason).map Prod.snd)).isSome := by
    rw [valuesAt_byReason hmarks.reason, isSome_correlationMatch_iff]
    exact hmarks.coinciding
  refine (getElem?_correlate_of_mem h (mem_groups.mpr ⟨List.mem_map_of_mem hentry, rfl⟩)
    (List.mem_map_of_mem (mem_valuesAt.mpr hentry))).trans ?_
  exact if_pos hmatch

theorem getElem?_correlate_of_not_marks (h : store.events[i]? = some e)
    (hmarks : ¬ store.Marks env e) : (store.correlate env).1.events[i]? = some e := by
  by_cases hmem : ∃ g ∈ groups env.order (EventStore.byReason store.events), i ∈ g.2.map Prod.fst
  · obtain ⟨g, hg, hi⟩ := hmem
    obtain ⟨rfl, hpending, hreason⟩ := group_of_mem h hg hi
    refine (getElem?_correlate_of_mem h hg hi).trans (if_neg fun hmatch => ?_)
    rw [valuesAt_byReason hreason, isSome_correlationMatch_iff] at hmatch
    exact hmarks ⟨hpending, hreason, hmatch⟩
  · refine (getElem?_correlateGroups_of_not_mem fun g hg hi => ?_).trans h
    exact hmem ⟨g, hg, hi⟩

/-- An event is marked if it was before, or if the uncorrelated events with its reason coincide. -/
theorem getElem?_correlate (h : store.events[i]? = some e) :
    ∃ e', (store.correlate env).1.events[i]? = some e' ∧ e.SameReport e' ∧
      (e'.correlated = true ↔ e.correlated = true ∨ e.primaryReason ≠ "" ∧
        Coinciding env store.correlationWindowSecs
          (uncorrelated store.events e.primaryReason)) := by
  by_cases hmarks : store.Marks env e
  · exact ⟨_, getElem?_correlate_of_marks h hmarks, StoredEvent.sameReport_markCorrelated env e,
      iff_of_true rfl (.inr ⟨hmarks.reason, hmarks.coinciding⟩)⟩
  · refine ⟨e, getElem?_correlate_of_not_marks h hmarks, .refl e, ?_⟩
    cases hcorrelated : e.correlated with
    | true => exact iff_of_true rfl (.inl rfl)
    | false =>
      refine iff_of_false Bool.noConfusion ?_
      rintro (hfalse | ⟨hreason, hcoinciding⟩)
      · exact absurd hfalse Bool.noConfusion
      · exact hmarks ⟨hcorrelated, hreason, hcoinciding⟩

/-! ## Ingestions -/

theorem Partner.congr {p : StoredEvent S A} (h : e.SameReport e') :
    Partner env window e' p ↔ Partner env window e p := by
  have hreason : e'.primaryReason = e.primaryReason := by
    rw [StoredEvent.primaryReason, h.reasons, StoredEvent.primaryReason]
  constructor
  · rintro ⟨hagent, hne, hsame, hreceived⟩
    rw [ReceivedWithin, h.receivedAt] at hreceived
    exact ⟨h.agentId ▸ hagent, hreason ▸ hne, hsame.trans hreason, hreceived⟩
  · rintro ⟨hagent, hne, hsame, hreceived⟩
    rw [ReceivedWithin, ← h.receivedAt] at hreceived
    exact ⟨h.agentId ▸ hagent, hreason ▸ hne, hsame.trans hreason.symm, hreceived⟩

namespace CorrelationWorld

/-- At an ingestion, an uncorrelated event has a partner, in the store or held before, if and only
if the uncorrelated events with its reason coincide. -/
def Timely (env : StoreEnv S) (w : CorrelationWorld S A) (ingestion : EventBatch S A × Int) :
    Prop :=
  let pushed := w.store.push env ingestion.1 ingestion.2
  ∀ e ∈ pushed.events, e.correlated = false → e.primaryReason ≠ "" →
    (Coinciding env w.store.correlationWindowSecs (uncorrelated pushed.events e.primaryReason) ↔
      ∃ p ∈ w.held ++ pushed.events, Partner env w.store.correlationWindowSecs e p)

variable {w : CorrelationWorld S A}

/-- Every event of the store after a push is marked by the correlation if and only if it has a
partner. -/
theorem exact_after_iff_forall (ingestion : EventBatch S A × Int) :
    (w.after env ingestion).Exact env ↔
      ∀ e ∈ (w.store.push env ingestion.1 ingestion.2).events,
        (e.correlated = true ∨ e.primaryReason ≠ "" ∧ Coinciding env w.store.correlationWindowSecs
          (uncorrelated (w.store.push env ingestion.1 ingestion.2).events e.primaryReason)) ↔
        ∃ p ∈ (w.after env ingestion).held, Partner env w.store.correlationWindowSecs e p := by
  constructor
  · intro h e he
    obtain ⟨i, hi⟩ := List.mem_iff_getElem?.mp he
    obtain ⟨e', hget, hsame, hmarked⟩ := getElem?_correlate hi
    exact hmarked.symm.trans ((h e' (List.mem_of_getElem? hget)).trans
      (exists_congr fun p => and_congr_right fun _ => Partner.congr hsame))
  · intro h e' he'
    obtain ⟨i, hi⟩ := List.mem_iff_getElem?.mp he'
    have hlength : i < (w.store.push env ingestion.1 ingestion.2).events.length := by
      rw [← EventStore.length_correlateGroups]
      exact (List.getElem?_eq_some_iff.mp hi).1
    have he := List.getElem?_eq_getElem hlength
    obtain ⟨e'', hget, hsame, hmarked⟩ := getElem?_correlate he
    obtain rfl := Option.some.inj (hget.symm.trans hi)
    exact hmarked.trans ((h _ (List.mem_of_getElem? he)).trans
      (exists_congr fun p => and_congr_right fun _ => (Partner.congr hsame).symm))

theorem exact_after_iff (hw : w.Exact env) (ingestion : EventBatch S A × Int) :
    (w.after env ingestion).Exact env ↔ w.Timely env ingestion := by
  rw [exact_after_iff_forall]
  constructor
  · intro h e he hpending hreason
    have hmarked := h e he
    rwa [hpending, or_iff_right Bool.false_ne_true, and_iff_right hreason] at hmarked
  · intro h e he
    cases hcorrelated : e.correlated with
    | true =>
      have hstore : e ∈ w.store.events :=
        (EventStore.mem_events_push he).resolve_right (by rw [hcorrelated]; exact Bool.noConfusion)
      obtain ⟨p, hp, hpartner⟩ := (hw e hstore).mp hcorrelated
      exact iff_of_true (.inl rfl) ⟨p, List.mem_append_left _ hp, hpartner⟩
    | false =>
      rw [or_iff_right Bool.false_ne_true]
      by_cases hreason : e.primaryReason = ""
      · exact iff_of_false (fun hne => hne.1 hreason) fun ⟨p, _, hp⟩ => hp.reason hreason
      · rw [and_iff_right hreason]
        exact h e he hcorrelated hreason

/-- Two agents report at the same time what one of them had reported an hour before. -/
def staleReport : List (EventBatch Unit Unit × Int) :=
  [(batchOf "agent-1" "high_cpu", 0), (batchOf "agent-1" "high_cpu", 3600000000000),
    (batchOf "agent-2" "high_cpu", 3600000000000)]

end CorrelationWorld

end Wardex.Events
