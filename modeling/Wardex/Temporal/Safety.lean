import Wardex.Temporal.BoundedResponse

/-! When the monitor reports a safety property, and that it reports it once: at the first event that
breaks the property after the guard has let it in. -/

namespace Wardex.Temporal

open Wardex.Lib

variable {F : Type}

/-! ## What is recorded for one property -/

namespace Monitor

/-- The violations recorded for the property at position `i`, in order. -/
def recorded (m : Monitor F) (i : Nat) : List Violation :=
  (m.violations.filter fun v => v.1 = i).map Prod.snd

/-- What one event adds for a property in this status. -/
def pushed (p : Property F) (event : MonitorEvent F) (eventIndex : Nat) (status : PropertyStatus) :
    List Violation :=
  if (p.check event status).2 then [{ propertyName := p.name, eventIndex := eventIndex }] else []

theorem filter_checkAll (event : MonitorEvent F) (eventIndex i k : Nat)
    {properties : List (Property F)} {states : List PropertyStatus} {p : Property F}
    {status : PropertyStatus} (hp : properties[k]? = some p) (hs : states[k]? = some status) :
    (((checkAll event eventIndex i properties states).2.filter fun v => v.1 = i + k).map Prod.snd) =
      pushed p event eventIndex status := by
  induction properties generalizing i k states with
  | nil => cases hp
  | cons q properties ih =>
    cases states with
    | nil => cases hs
    | cons status' states =>
      rw [checkAll]
      dsimp only
      rw [List.filter_append, List.map_append]
      cases k with
      | zero =>
        obtain rfl := Option.some.inj hp
        obtain rfl := Option.some.inj hs
        have hrest : (checkAll event eventIndex (i + 1) properties states).2.filter
            (fun v => v.1 = i + 0) = [] := by
          rw [List.filter_eq_nil_iff]
          intro v hv
          obtain ⟨k, p, status, -, -, -, rfl⟩ := (mem_checkAll ..).mp hv
          simp only [decide_eq_true_eq]
          omega
        rw [hrest, List.map_nil, List.append_nil, pushed]
        split_ifs <;> simp
      | succ k =>
        have hhead : (if (q.check event status').2 = true then
            [(i, ({ propertyName := q.name, eventIndex := eventIndex } : Violation))]
            else []).filter (fun v => v.1 = i + (k + 1)) = [] := by
          split_ifs <;> simp
        rw [hhead, ← Nat.add_assoc, Nat.add_right_comm]
        exact ih (i + 1) k hp hs

theorem recorded_step {m : Monitor F} {i : Nat} {p : Property F} {status : PropertyStatus}
    (hp : m.properties[i]? = some p) (hs : m.states[i]? = some status) (event : MonitorEvent F) :
    (m.step event).recorded i = m.recorded i ++ pushed p event (m.eventCount + 1) status := by
  have hchecked := filter_checkAll event (m.eventCount + 1) 0 i hp hs
  rw [Nat.zero_add] at hchecked
  rw [recorded, step, List.filter_append, List.map_append, hchecked]
  rfl

/-- What the events add for a property, which depends on nothing else. -/
def reports (p : Property F) : Nat → PropertyStatus → List (MonitorEvent F) → List Violation
  | _, _, [] => []
  | count, status, event :: events =>
    pushed p event (count + 1) status ++
      reports p (count + 1) (p.check event status).1 events

theorem recorded_run {m : Monitor F} {i : Nat} {p : Property F} {status : PropertyStatus}
    (hp : m.properties[i]? = some p) (hs : m.states[i]? = some status)
    (ops : List (MonitorOp F)) :
    (run after m ops).recorded i =
      m.recorded i ++ reports p m.eventCount status (events ops) := by
  induction ops generalizing m status with
  | nil => exact (List.append_nil _).symm
  | cons op ops ih =>
    cases op with
    | addProperty q =>
      obtain ⟨hp', hs'⟩ := getElem?_addProperty hp hs q
      exact ih (m := m.addProperty q) hp' hs'
    | step event =>
      rw [run_cons]
      refine (ih (m := m.step event) hp (getElem?_states hp hs event)).trans ?_
      rw [recorded_step hp hs, List.append_assoc]
      rfl

theorem eventCount_run (m : Monitor F) (ops : List (MonitorOp F)) :
    (run after m ops).eventCount = m.eventCount + (events ops).length := by
  induction ops generalizing m with
  | nil => rfl
  | cons op ops ih =>
    rw [run_cons, ih]
    cases op with
    | addProperty p => rfl
    | step event =>
      change m.eventCount + 1 + (events ops).length = m.eventCount + ((events ops).length + 1)
      rw [Nat.add_assoc, Nat.add_comm 1]

/-- A property registered after any calls has what the events that follow report for it. -/
theorem recorded_addProperty (before later : List (MonitorOp F)) (p : Property F) :
    (run after ((run after new before).addProperty p) later).recorded
        (run after new before).properties.length =
      reports p (events before).length .idle (events later) := by
  have hcount : (run after new before).eventCount = (events before).length :=
    (eventCount_run new before).trans (Nat.zero_add _)
  generalize hm : run after new before = m at hcount ⊢
  have hinv : m.Inv := hm ▸ inv_run before
  have hnone : (m.addProperty p).recorded m.properties.length = [] := by
    rw [recorded, List.map_eq_nil_iff, List.filter_eq_nil_iff]
    intro v hv
    rw [decide_eq_true_eq]
    exact (hinv.bound v hv).ne
  have hs : (m.addProperty p).states[m.properties.length]? = some .idle := by
    rw [← m.sameLength]
    exact List.getElem?_concat_length
  rw [recorded_run (p := p) List.getElem?_concat_length hs, hnone, List.nil_append, ← hcount]
  rfl

end Monitor

/-! ## Safety on a trace -/

section

variable (p : Property F) (pred : Predicate F)

/-- The event at this position is on the property's stream, the predicate fails on it, and it is at
or after one that the guard let in. -/
def Broken (events : List (MonitorEvent F)) (k : Nat) : Prop :=
  (∃ e, events[k]? = some e ∧ matchesStream p.stream e = true ∧ pred e = false) ∧
    ∃ j ≤ k, ∃ e, events[j]? = some e ∧ p.Triggers e

/-- The same where an event may have been let in before. -/
def BrokenFrom (armed : Bool) (events : List (MonitorEvent F)) (k : Nat) : Prop :=
  (∃ e, events[k]? = some e ∧ matchesStream p.stream e = true ∧ pred e = false) ∧
    (armed = true ∨ ∃ j ≤ k, ∃ e, events[j]? = some e ∧ p.Triggers e)

/-- The status of a safety property that no event has broken. -/
def armedStatus (armed : Bool) : PropertyStatus := if armed then .satisfied else .idle

variable {p pred} {event : MonitorEvent F} {events : List (MonitorEvent F)} {armed : Bool}

theorem brokenFrom_zero : BrokenFrom p pred armed (event :: events) 0 ↔
    matchesStream p.stream event = true ∧ pred event = false ∧
      (armed = true ∨ p.Triggers event) := by
  constructor
  · rintro ⟨⟨e, he, hstream, hpred⟩, harmed⟩
    obtain rfl := Option.some.inj he
    refine ⟨hstream, hpred, harmed.imp_right ?_⟩
    rintro ⟨j, hj, e, he, htrigger⟩
    obtain rfl := Nat.le_zero.mp hj
    obtain rfl := Option.some.inj he
    exact htrigger
  · rintro ⟨hstream, hpred, harmed⟩
    exact ⟨⟨event, rfl, hstream, hpred⟩,
      harmed.imp_right fun htrigger => ⟨0, Nat.le_refl 0, event, rfl, htrigger⟩⟩

theorem brokenFrom_succ {k : Nat} : BrokenFrom p pred armed (event :: events) (k + 1) ↔
    BrokenFrom p pred (armed || decide (p.Triggers event)) events k := by
  refine and_congr_right fun _ => ?_
  rw [Bool.or_eq_true, decide_eq_true_eq]
  constructor
  · rintro (harmed | ⟨j, hj, e, he, htrigger⟩)
    · exact Or.inl (Or.inl harmed)
    · cases j with
      | zero =>
        obtain rfl := Option.some.inj he
        exact Or.inl (Or.inr htrigger)
      | succ j => exact Or.inr ⟨j, Nat.le_of_succ_le_succ hj, e, he, htrigger⟩
  · rintro ((harmed | htrigger) | ⟨j, hj, e, he, htrigger⟩)
    · exact Or.inl harmed
    · exact Or.inr ⟨0, Nat.zero_le _, event, rfl, htrigger⟩
    · exact Or.inr ⟨j + 1, Nat.succ_le_succ hj, e, he, htrigger⟩

/-- One event breaks the property, or lets it in where the guard says so. -/
theorem check_always (h : p.obligation = .always pred) (armed : Bool) (event : MonitorEvent F) :
    p.check event (armedStatus armed) =
      if matchesStream p.stream event = true ∧ pred event = false ∧
          (armed = true ∨ p.Triggers event) then (.violated, true)
      else (armedStatus (armed || decide (p.Triggers event)), false) := by
  cases hown : matchesStream p.stream event <;> cases hguard : p.guardMatches event <;>
    cases hpred : pred event <;> cases armed <;>
    simp [Property.check, armedStatus, h, hown, hguard, hpred, Property.Triggers]

theorem reports_violated (count : Nat) (events : List (MonitorEvent F)) :
    Monitor.reports p count .violated events = [] := by
  induction events generalizing count with
  | nil => rfl
  | cons event events ih =>
    have hpushed : (p.check event .violated).2 ≠ true := fun h =>
      ((p.check_pushes event .violated).mp h).2 rfl
    rw [Monitor.reports, p.check_violated, ih, Monitor.pushed, if_neg hpushed]
    rfl

/-- What is reported for a safety property: the first event that breaks it, once. -/
theorem reports_always (h : p.obligation = .always pred) (count : Nat) (armed : Bool)
    (events : List (MonitorEvent F)) :
    (∀ k, BrokenFrom p pred armed events k → (∀ k' < k, ¬ BrokenFrom p pred armed events k') →
      Monitor.reports p count (armedStatus armed) events =
        [{ propertyName := p.name, eventIndex := count + k + 1 }]) ∧
    ((∀ k, ¬ BrokenFrom p pred armed events k) →
      Monitor.reports p count (armedStatus armed) events = []) := by
  induction events generalizing count armed with
  | nil =>
    refine ⟨fun k hk => ?_, fun _ => rfl⟩
    obtain ⟨⟨e, he, -⟩, -⟩ := hk
    cases he
  | cons event events ih =>
    have hcheck := check_always h armed event
    rw [Monitor.reports, Monitor.pushed]
    by_cases hbroken : BrokenFrom p pred armed (event :: events) 0
    · -- reported now, and never again
      rw [if_pos (brokenFrom_zero.mp hbroken)] at hcheck
      rw [hcheck, if_pos rfl, reports_violated]
      refine ⟨fun k _ hfirst => ?_, fun hnone => absurd hbroken (hnone 0)⟩
      cases k with
      | zero => rfl
      | succ k => exact absurd hbroken (hfirst 0 (Nat.succ_pos k))
    · rw [if_neg fun hb => hbroken (brokenFrom_zero.mpr hb)] at hcheck
      obtain ⟨hfound, hnone⟩ := ih (count + 1) (armed || decide (p.Triggers event))
      rw [hcheck, if_neg Bool.false_ne_true, List.nil_append]
      constructor
      · intro k hk hfirst
        cases k with
        | zero => exact absurd hk hbroken
        | succ k =>
          rw [hfound k (brokenFrom_succ.mp hk) fun k' hk' hb =>
            hfirst (k' + 1) (Nat.succ_lt_succ hk') (brokenFrom_succ.mpr hb)]
          rw [Nat.add_assoc count 1 k, Nat.add_comm 1 k]
      · exact fun hall => hnone fun k hb => hall (k + 1) (brokenFrom_succ.mpr hb)

end

/-- **Safety.**  For an `always` property registered after any calls, among any others, exactly one
violation is recorded, at the first event that breaks it, and none where no event does; what is
recorded depends on the events alone. -/
theorem always_recorded (before later : List (MonitorOp F)) (name : String) (stream : Stream)
    (guard : Option (Predicate F)) (pred : Predicate F) :
    let p : Property F := { name, stream, guard, obligation := .always pred }
    let recorded := fun before later =>
      (run Monitor.after ((run Monitor.after .new before).addProperty p) later).recorded
        (run Monitor.after .new before).properties.length
    (∀ k, Broken p pred (Monitor.events later) k →
      (∀ k' < k, ¬ Broken p pred (Monitor.events later) k') →
      recorded before later =
        [{ propertyName := name, eventIndex := (Monitor.events before).length + k + 1 }]) ∧
    ((∀ k, ¬ Broken p pred (Monitor.events later) k) → recorded before later = []) ∧
    ∀ before' later', Monitor.events before' = Monitor.events before →
      Monitor.events later' = Monitor.events later →
      recorded before' later' = recorded before later := by
  intro p recorded
  have hbroken (k : Nat) : BrokenFrom p pred false (Monitor.events later) k ↔
      Broken p pred (Monitor.events later) k :=
    and_congr_right fun _ => or_iff_right Bool.false_ne_true
  have hrecorded (before later : List (MonitorOp F)) : recorded before later =
      Monitor.reports p (Monitor.events before).length .idle (Monitor.events later) :=
    Monitor.recorded_addProperty before later p
  obtain ⟨hfirst, hnone⟩ := reports_always (p := p) rfl (Monitor.events before).length false
    (Monitor.events later)
  rw [hrecorded]
  refine ⟨fun k hk hleast => ?_, fun hall => hnone fun k hk => hall k ((hbroken k).mp hk), ?_⟩
  · exact hfirst k ((hbroken k).mpr hk) fun k' hk' hb => hleast k' hk' ((hbroken k').mp hb)
  · intro before' later' hbefore hlater
    rw [hrecorded, hbefore, hlater]

end Wardex.Temporal
