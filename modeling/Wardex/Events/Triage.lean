import Wardex.Events.Store
import Wardex.Lib.Run

/-! Triage of many events at once: the loop of the bulk update, which writes the fields of an event
on its own, beside calls for one event after the other. -/

namespace Wardex.Events

open Wardex.Lib Wardex.Enrollment

/-! ## The loop -/

/-- The status of an update as the bulk update writes it, or the error of it. -/
def bulkStatus (update : EventTriageUpdate) (now : String) (triage : EventTriage) :
    Except String EventTriage :=
  match update.status with
  | none => .ok triage
  | some status =>
    match normalizeStatus status with
    | none => .error ("invalid triage status: " ++ status)
    | some normalized =>
      let triage := { triage with status := normalized }
      let triage :=
        if normalized ∈ ["acknowledged", "investigating", "contained", "resolved"] ∧
            triage.acknowledgedAt = none then { triage with acknowledgedAt := some now }
        else triage
      .ok (if normalized = "resolved" then { triage with resolvedAt := some now }
        else { triage with resolvedAt := none })

/-- The other marks. -/
def bulkMarks (update : EventTriageUpdate) (now : String) (triage : EventTriage) : EventTriage :=
  let triage := match update.assignee with
    | none => triage
    | some assignee =>
      let trimmed := trimText assignee
      { triage with assignee := if trimmed ≠ "" then some trimmed else none }
  let triage := match update.tags with
    | none => triage
    | some tags =>
      let tags := (tags.map fun tag => toAsciiLowercase (trimText tag)).filter fun tag => tag ≠ ""
      { triage with tags := (tags.insertionSort fun a b => a ≤ b).dedup }
  let triage := match update.note with
    | none => triage
    | some note =>
      let trimmed := trimText note
      if trimmed ≠ "" then
        let note : EventNote := ⟨update.author.getD "analyst", trimmed, now⟩
        { triage with notes := triage.notes ++ [note] }
      else triage
  { triage with lastUpdatedAt := now }

/-- What the loop over the ids changes. -/
structure BulkState (S A : Type) where
  events : List (StoredEvent S A)
  result : BulkTriageResult

variable {S A : Type}

namespace BulkState

def fail (s : BulkState S A) (eventId : UInt64) (message : String) : BulkState S A :=
  { s with result := { s.result with failed := s.result.failed ++ [(eventId, message)] } }

def step (update : EventTriageUpdate) (now : String) (s : BulkState S A) (eventId : UInt64) :
    BulkState S A :=
  match s.events.find? fun event => event.id = eventId with
  | none => s.fail eventId "event not found"
  | some event =>
    match bulkStatus update now event.triage with
    | .error message => s.fail eventId message
    | .ok triage =>
      { events := updateFirst (fun event => event.id = eventId) (fun event =>
          event.withTriage (bulkMarks update now triage)) s.events
        result := { s.result with updated := s.result.updated + 1 } }

end BulkState

namespace EventStore

/-- `bulk_update_triage` as one loop, with one reading of the clock. -/
def bulkUpdateTriageLoop (env : StoreEnv S) (store : EventStore S A) (eventIds : List UInt64)
    (update : EventTriageUpdate) (now : Int) : EventStore S A × BulkTriageResult :=
  let s := eventIds.foldl (BulkState.step update (env.chrono.format now))
    ⟨store.events, ⟨0, []⟩⟩
  ({ store with events := s.events }, s.result)

/-- Calls of `update_triage`, each at its own time, with what they return. -/
def updateTriageCalls (env : StoreEnv S) (store : EventStore S A) (update : EventTriageUpdate) :
    List (UInt64 × Int) → EventStore S A × List (UInt64 × Except String (StoredEvent S A))
  | [] => (store, [])
  | (eventId, now) :: calls =>
    let updated := store.updateTriage env eventId update now
    let rest := updateTriageCalls env updated.1 update calls
    (rest.1, (eventId, updated.2) :: rest.2)

end EventStore

/-- The calls that returned an error, with it. -/
def failures (results : List (UInt64 × Except String (StoredEvent S A))) : List (UInt64 × String) :=
  results.filterMap fun r =>
    match r.2 with
    | .error message => some (r.1, message)
    | .ok _ => none

/-! ## Up to timestamps -/

namespace EventTriage

def untimed (triage : EventTriage) : EventTriage where
  status := triage.status
  assignee := triage.assignee
  tags := triage.tags
  notes := triage.notes.map fun note => { note with createdAt := "" }
  acknowledgedAt := triage.acknowledgedAt.map fun _ => ""
  resolvedAt := triage.resolvedAt.map fun _ => ""
  lastUpdatedAt := ""

end EventTriage

def StoredEvent.untimed (event : StoredEvent S A) : StoredEvent S A :=
  event.withTriage event.triage.untimed

/-- An event has a time of resolution exactly when its status is that. -/
def Resolved (event : StoredEvent S A) : Prop :=
  event.triage.resolvedAt.isSome ↔ event.triage.status = "resolved"

variable {update : EventTriageUpdate} {now now' : String} {triage triage' : EventTriage}

theorem acknowledge_eq (marks : Prop) [Decidable marks] (triage : EventTriage) (now : String) :
    (if marks ∧ triage.acknowledgedAt = none then { triage with acknowledgedAt := some now }
      else triage) =
      { triage with
        acknowledgedAt := if marks then triage.acknowledgedAt.or (some now)
          else triage.acknowledgedAt } := by
  obtain ⟨status, assignee, tags, notes, acknowledgedAt, resolvedAt, lastUpdatedAt⟩ := triage
  by_cases h : marks
  · cases acknowledgedAt <;> simp [h]
  · simp [h]

theorem bulkStatus_eq (update : EventTriageUpdate) (now : String) (triage : EventTriage) :
    bulkStatus update now triage = triage.withStatus update.status now := by
  rw [bulkStatus, EventTriage.withStatus.eq_def]
  cases update.status with
  | none => rfl
  | some status =>
    dsimp only
    cases normalizeStatus status with
    | none => rfl
    | some normalized =>
      have hacknowledge := acknowledge_eq
        (normalized ∈ ["acknowledged", "investigating", "contained", "resolved"])
        { triage with status := normalized } now
      dsimp only at hacknowledge ⊢
      rw [hacknowledge]
      split_ifs <;> rfl

theorem bulkMarks_eq (update : EventTriageUpdate) (now : String) (triage : EventTriage) :
    bulkMarks update now triage =
      { ((triage.withAssignee update.assignee).withTags update.tags).withNote update.note
          update.author now with lastUpdatedAt := now } := by
  have hassignee : ∀ trimmed : String, (if trimmed ≠ "" then some trimmed else none) =
      if trimmed = "" then none else some trimmed := fun trimmed => ite_not ..
  rw [bulkMarks]
  cases update.assignee <;> cases update.tags <;> cases update.note <;>
    simp only [EventTriage.withAssignee, EventTriage.withTags, EventTriage.withNote, hassignee,
      ne_eq, ite_not]

/-- Both write the same marks. -/
theorem bulk_marks_update (update : EventTriageUpdate) (now : String) (triage : EventTriage) :
    (bulkStatus update now triage).map (bulkMarks update now) = triage.update update now := by
  have hmarks := funext (bulkMarks_eq update now)
  rw [bulkStatus_eq, hmarks, EventTriage.update]

theorem untimed_withStatus (status : Option String) (now : String) (triage : EventTriage) :
    (triage.withStatus status now).map EventTriage.untimed =
      triage.untimed.withStatus status "" := by
  cases status with
  | none => rfl
  | some status =>
    rw [EventTriage.withStatus, EventTriage.withStatus]
    cases normalizeStatus status with
    | none => rfl
    | some normalized =>
      simp only [Except.map, EventTriage.untimed, Except.ok.injEq, EventTriage.mk.injEq, true_and,
        and_true]
      constructor
      · split_ifs
        · cases triage.acknowledgedAt <;> rfl
        · rfl
      · split_ifs <;> rfl

theorem untimed_withAssignee (assignee : Option String) (triage : EventTriage) :
    (triage.withAssignee assignee).untimed = triage.untimed.withAssignee assignee := by
  cases assignee <;> rfl

theorem untimed_withTags (tags : Option (List String)) (triage : EventTriage) :
    (triage.withTags tags).untimed = triage.untimed.withTags tags := by
  cases tags <;> rfl

theorem untimed_withNote (note author : Option String) (now : String) (triage : EventTriage) :
    (triage.withNote note author now).untimed = triage.untimed.withNote note author "" := by
  cases note with
  | none => rfl
  | some note =>
    simp only [EventTriage.withNote]
    split_ifs
    · rfl
    · simp [EventTriage.untimed]

/-- What an update makes of a triage does not depend on its times, up to times. -/
theorem untimed_update (update : EventTriageUpdate) (now : String) (triage : EventTriage) :
    (triage.update update now).map EventTriage.untimed = triage.untimed.update update "" := by
  rw [EventTriage.update, EventTriage.update, ← untimed_withStatus update.status now]
  cases triage.withStatus update.status now with
  | error message => rfl
  | ok triage =>
    simp only [Except.map, ← untimed_withAssignee, ← untimed_withTags, ← untimed_withNote _ _ now]
    rfl

/-! ## One event after the other -/

/-- One update of a list of events at a time given as a text. -/
def triageEvents (update : EventTriageUpdate) (now : String) (events : List (StoredEvent S A))
    (eventId : UInt64) : List (StoredEvent S A) × Except String (StoredEvent S A) :=
  match events.find? fun event => event.id = eventId with
  | none => (events, .error "event not found")
  | some event =>
    match event.triage.update update now with
    | .error message => (events, .error message)
    | .ok triage =>
      (updateFirst (fun event => event.id = eventId) (fun event => event.withTriage triage) events,
        .ok (event.withTriage triage))

variable {events : List (StoredEvent S A)} {eventId : UInt64}

theorem updateTriage_eq (env : StoreEnv S) (store : EventStore S A) (eventId : UInt64)
    (update : EventTriageUpdate) (now : Int) :
    store.updateTriage env eventId update now =
      ({ store with
          events := (triageEvents update (env.chrono.format now) store.events eventId).1 },
        (triageEvents update (env.chrono.format now) store.events eventId).2) := by
  rw [EventStore.updateTriage, triageEvents]
  cases store.events.find? fun event => event.id = eventId with
  | none => rfl
  | some event =>
    dsimp only
    cases event.triage.update update (env.chrono.format now) <;> rfl

theorem step_eq (update : EventTriageUpdate) (now : String) (s : BulkState S A)
    (eventId : UInt64) :
    s.step update now eventId =
      { events := (triageEvents update now s.events eventId).1
        result := match (triageEvents update now s.events eventId).2 with
          | .ok _ => { s.result with updated := s.result.updated + 1 }
          | .error message =>
            { s.result with failed := s.result.failed ++ [(eventId, message)] } } := by
  rw [BulkState.step, triageEvents]
  cases s.events.find? fun event => event.id = eventId with
  | none => rfl
  | some event =>
    dsimp only
    rw [← bulk_marks_update]
    cases bulkStatus update now event.triage <;> rfl

/-- Up to times, an update does not depend on the times in the events nor on its own. -/
theorem untimed_triageEvents (update : EventTriageUpdate) (now : String)
    (events : List (StoredEvent S A)) (eventId : UInt64) :
    ((triageEvents update now events eventId).1.map StoredEvent.untimed,
      (triageEvents update now events eventId).2.map StoredEvent.untimed) =
      triageEvents update "" (events.map StoredEvent.untimed) eventId := by
  have hfind : (events.map StoredEvent.untimed).find? (fun event => event.id = eventId) =
      (events.find? fun event => event.id = eventId).map StoredEvent.untimed := List.find?_map ..
  rw [triageEvents, triageEvents, hfind]
  cases hevent : events.find? fun event => event.id = eventId with
  | none => rfl
  | some event =>
    have hupdate : event.untimed.triage.update update "" =
        (event.triage.update update now).map EventTriage.untimed :=
      (untimed_update update now event.triage).symm
    dsimp only [Option.map_some]
    rw [hupdate]
    cases event.triage.update update now with
    | error message => rfl
    | ok triage =>
      refine Prod.ext ?_ rfl
      exact map_updateFirst_comm (fun _ => rfl) fun _ => rfl

/-- The same update of two lists that differ in times only. -/
theorem triageEvents_congr {events' : List (StoredEvent S A)}
    (h : events.map StoredEvent.untimed = events'.map StoredEvent.untimed)
    (update : EventTriageUpdate) (now now' : String) (eventId : UInt64) :
    (triageEvents update now events eventId).1.map StoredEvent.untimed =
        (triageEvents update now' events' eventId).1.map StoredEvent.untimed ∧
      (triageEvents update now events eventId).2.map StoredEvent.untimed =
        (triageEvents update now' events' eventId).2.map StoredEvent.untimed := by
  have hsame := untimed_triageEvents update now events eventId
  rw [h, ← untimed_triageEvents update now'] at hsame
  exact Prod.mk.inj hsame

/-! ## Resolution -/

theorem resolved_withStatus {status : Option String}
    (h : triage.resolvedAt.isSome ↔ triage.status = "resolved")
    (hstatus : triage.withStatus status now = .ok triage') :
    triage'.resolvedAt.isSome ↔ triage'.status = "resolved" := by
  rw [EventTriage.withStatus.eq_def] at hstatus
  cases status with
  | none =>
    cases hstatus
    exact h
  | some status =>
    dsimp only at hstatus
    cases hnormalized : normalizeStatus status with
    | none =>
      rw [hnormalized] at hstatus
      cases hstatus
    | some normalized =>
      rw [hnormalized] at hstatus
      cases hstatus
      dsimp only
      split_ifs with hresolved
      · exact iff_of_true rfl hresolved
      · exact iff_of_false Bool.false_ne_true hresolved

/-- The triages say the same of the resolution of an event. -/
def SameResolution (triage triage' : EventTriage) : Prop :=
  (triage.status, triage.resolvedAt) = (triage'.status, triage'.resolvedAt)

theorem sameResolution_withAssignee (triage : EventTriage) (assignee : Option String) :
    SameResolution (triage.withAssignee assignee) triage := by
  cases assignee <;> rfl

theorem sameResolution_withTags (triage : EventTriage) (tags : Option (List String)) :
    SameResolution (triage.withTags tags) triage := by
  cases tags <;> rfl

theorem sameResolution_withNote (triage : EventTriage) (note author : Option String)
    (now : String) : SameResolution (triage.withNote note author now) triage := by
  cases note with
  | none => rfl
  | some note =>
    simp only [EventTriage.withNote]
    split_ifs <;> rfl

theorem resolved_update (h : triage.resolvedAt.isSome ↔ triage.status = "resolved")
    (hupdate : triage.update update now = .ok triage') :
    triage'.resolvedAt.isSome ↔ triage'.status = "resolved" := by
  obtain ⟨marked, hstatus, rfl⟩ := map_eq_ok hupdate
  have hmarked := resolved_withStatus h hstatus
  have hkept : SameResolution (((marked.withAssignee update.assignee).withTags
      update.tags).withNote update.note update.author now) marked :=
    ((sameResolution_withNote _ _ _ _).trans (sameResolution_withTags _ _)).trans
      (sameResolution_withAssignee _ _)
  obtain ⟨hstatus', hresolvedAt⟩ := Prod.mk.inj hkept
  dsimp only
  rw [hstatus', hresolvedAt]
  exact hmarked

theorem resolved_triageEvents (h : ∀ e ∈ events, Resolved e) :
    ∀ e ∈ (triageEvents update now events eventId).1, Resolved e := by
  rw [triageEvents]
  cases hfind : events.find? fun event => event.id = eventId with
  | none => exact h
  | some event =>
    dsimp only
    cases hupdate : event.triage.update update now with
    | error message => exact h
    | ok triage =>
      intro e he
      rcases mem_updateFirst he with he | ⟨event', hfind', rfl⟩
      · exact h e he
      · exact resolved_update (h event (List.mem_of_find?_eq_some hfind)) hupdate

theorem resolved_loop {s : BulkState S A} (h : ∀ e ∈ s.events, Resolved e)
    (eventIds : List UInt64) :
    ∀ e ∈ (eventIds.foldl (BulkState.step update now) s).events, Resolved e := by
  induction eventIds generalizing s with
  | nil => exact h
  | cons eventId rest ih =>
    rw [List.foldl_cons]
    refine ih ?_
    rw [step_eq]
    exact resolved_triageEvents h

namespace EventStore

variable {env : StoreEnv S} {store : EventStore S A}

theorem resolved_updateTriageCalls (h : ∀ e ∈ store.events, Resolved e)
    (calls : List (UInt64 × Int)) :
    ∀ e ∈ (store.updateTriageCalls env update calls).1.events, Resolved e := by
  induction calls generalizing store with
  | nil => exact h
  | cons call calls ih =>
    refine ih ?_
    rw [updateTriage_eq]
    exact resolved_triageEvents h

/-- The loop and the calls go through the same events up to times, and fail at the same ids. -/
theorem loop_eq_calls (env : StoreEnv S) (update : EventTriageUpdate) {s : BulkState S A}
    (now : String)
    (h : s.events.map StoredEvent.untimed = store.events.map StoredEvent.untimed)
    (calls : List (UInt64 × Int)) :
    let s' := (calls.map Prod.fst).foldl (BulkState.step update now) s
    let single := store.updateTriageCalls env update calls
    s'.events.map StoredEvent.untimed = single.1.events.map StoredEvent.untimed ∧
      s'.result.failed = s.result.failed ++ failures single.2 ∧
      s'.result.updated = s.result.updated + single.2.countP fun r => r.2.isOk := by
  induction calls generalizing s store with
  | nil => exact ⟨h, (List.append_nil _).symm, rfl⟩
  | cons call calls ih =>
    obtain ⟨eventId, now'⟩ := call
    -- both update the same event, or fail with the same error
    obtain ⟨hevents, hresult⟩ := triageEvents_congr h update now (env.chrono.format now') eventId
    have hstep : (s.step update now eventId).events.map StoredEvent.untimed =
        (store.updateTriage env eventId update now').1.events.map StoredEvent.untimed := by
      rw [step_eq, updateTriage_eq]
      exact hevents
    have hreport : ∀ (r r' : Except String (StoredEvent S A)),
        r.map StoredEvent.untimed = r'.map StoredEvent.untimed →
        (match r with
          | .ok _ => { s.result with updated := s.result.updated + 1 }
          | .error message =>
            { s.result with failed := s.result.failed ++ [(eventId, message)] } :
          BulkTriageResult) =
        ⟨s.result.updated + [(eventId, r')].countP (fun r => r.2.isOk),
          s.result.failed ++ failures [(eventId, r')]⟩ := by
      intro r r' hsame
      cases r with
      | error message =>
        cases r' with
        | error message' =>
          obtain rfl : message = message' := Except.error.inj hsame
          rfl
        | ok event => cases hsame
      | ok event =>
        cases r' with
        | error message => cases hsame
        | ok event' => simp [failures, Except.isOk, Except.toBool]
    have hresult' : (s.step update now eventId).result =
        ⟨s.result.updated + [(eventId, (store.updateTriage env eventId update now').2)].countP
            (fun r => r.2.isOk),
          s.result.failed ++
            failures [(eventId, (store.updateTriage env eventId update now').2)]⟩ := by
      rw [step_eq, updateTriage_eq]
      exact hreport _ _ hresult
    obtain ⟨hrest, hfailed, hupdated⟩ := ih hstep
    rw [hresult'] at hfailed hupdated
    refine ⟨hrest, hfailed.trans ?_, hupdated.trans ?_⟩
    · rw [List.append_assoc]
      exact congrArg (s.result.failed ++ ·) List.filterMap_append.symm
    · rw [Nat.add_assoc, ← List.countP_append]
      rfl

/-- **Bulk triage.**  A bulk update leaves the same events, up to times, as calls of `update_triage`
for one id after the other, whenever these are made; it reports exactly the calls that fail, in
their order, and counts the others.  Both keep the times of resolution right. -/
theorem bulk_triage_eq_calls (env : StoreEnv S) (store : EventStore S A)
    (update : EventTriageUpdate) (now : Int) (calls : List (UInt64 × Int)) :
    let bulk := store.bulkUpdateTriageLoop env (calls.map Prod.fst) update now
    let single := store.updateTriageCalls env update calls
    bulk.1.events.map StoredEvent.untimed = single.1.events.map StoredEvent.untimed ∧
      bulk.2.failed = failures single.2 ∧
      (bulk.2.updated = single.2.countP fun r => r.2.isOk) ∧
      ((∀ e ∈ store.events, Resolved e) →
        (∀ e ∈ bulk.1.events, Resolved e) ∧ ∀ e ∈ single.1.events, Resolved e) := by
  obtain ⟨hevents, hfailed, hupdated⟩ := loop_eq_calls env update (s := ⟨store.events, ⟨0, []⟩⟩)
    (env.chrono.format now) rfl calls
  refine ⟨hevents, hfailed, hupdated.trans (Nat.zero_add _), fun h => ?_⟩
  exact ⟨resolved_loop h _, resolved_updateTriageCalls h calls⟩

end EventStore

end Wardex.Events
