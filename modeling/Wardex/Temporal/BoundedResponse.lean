import Wardex.Lib.Response
import Wardex.Temporal.Monitor

/-! When the monitor reports a bounded-response property, compared with the meaning of the
property on the whole trace. -/

namespace Wardex.Temporal

open Wardex.Lib

variable {F : Type}

/-! ## One property -/

namespace Property

def Triggers (p : Property F) (event : MonitorEvent F) : Prop :=
  matchesStream p.stream event ∧ p.guardMatches event

/-- An answer on the property's own stream. -/
def OwnAnswer (p : Property F) (pred : Predicate F) (event : MonitorEvent F) : Prop :=
  matchesStream p.stream event ∧ pred event

instance (p : Property F) : DecidablePred p.Triggers := fun _ => inferInstanceAs (Decidable (_ ∧ _))

instance (p : Property F) (pred : Predicate F) : DecidablePred (p.OwnAnswer pred) :=
  fun _ => inferInstanceAs (Decidable (_ ∧ _))

/-- A violation is pushed exactly when the status turns to `violated`. -/
theorem check_pushes (p : Property F) (event : MonitorEvent F) (status : PropertyStatus) :
    (p.check event status).2 = true ↔
      (p.check event status).1 = .violated ∧ status ≠ .violated := by
  unfold check
  cases status <;> cases p.obligation <;> dsimp only <;> split_ifs <;> simp_all

theorem check_violated (p : Property F) (event : MonitorEvent F) :
    (p.check event .violated).1 = .violated := by
  unfold check
  dsimp only
  split_ifs <;> rfl

end Property

/-- The status as a state of the automaton that watches the first trigger. -/
def PropertyStatus.watch : PropertyStatus → Watch
  | .idle => .idle
  | .tracking remaining => .tracking remaining
  | .satisfied => .satisfied
  | .violated => .violated

theorem PropertyStatus.watch_eq_violated {status : PropertyStatus} :
    status.watch = .violated ↔ status = .violated := by
  cases status <;> simp [watch]

theorem Property.watch_check {p : Property F} {n : Nat} {pred : Predicate F}
    (h : p.obligation = .within n pred) (event : MonitorEvent F) (status : PropertyStatus) :
    (p.check event status).1.watch =
      Watch.step p.Triggers (p.OwnAnswer pred) n status.watch event := by
  cases hown : matchesStream p.stream event with
  | false =>
    -- neither a trigger nor an answer
    cases status with
    | tracking remaining =>
      cases remaining <;>
        simp [check, hown, PropertyStatus.watch, Watch.step, Watch.await, OwnAnswer]
    | _ => simp [check, hown, PropertyStatus.watch, Watch.step, Triggers]
  | true =>
    cases hguard : p.guardMatches event <;> cases hpred : pred event <;> cases status <;>
      simp [check, h, hown, hguard, hpred, PropertyStatus.watch, Watch.step, Watch.await,
        Triggers, OwnAnswer] <;>
      split_ifs <;> rfl

/-! ## All properties of a monitor -/

namespace Monitor

theorem getElem?_checkAll (event : MonitorEvent F) (eventIndex i : Nat)
    (properties : List (Property F)) (states : List PropertyStatus) (k : Nat) :
    (checkAll event eventIndex i properties states).1[k]? =
      (properties[k]?).bind fun p => (states[k]?).map fun status => (p.check event status).1 := by
  induction properties generalizing i k states with
  | nil => simp [checkAll]
  | cons p properties ih =>
    cases states with
    | nil => simp [checkAll]
    | cons status states =>
      rw [checkAll]
      cases k with
      | zero => rfl
      | succ k => exact ih (i + 1) states k

theorem mem_checkAll (event : MonitorEvent F) (eventIndex i : Nat)
    (properties : List (Property F)) (states : List PropertyStatus) (v : Nat × Violation) :
    v ∈ (checkAll event eventIndex i properties states).2 ↔
      ∃ k p status, properties[k]? = some p ∧ states[k]? = some status ∧
        (p.check event status).2 = true ∧
        v = (i + k, { propertyName := p.name, eventIndex := eventIndex }) := by
  induction properties generalizing i states with
  | nil => simp [checkAll]
  | cons p properties ih =>
    cases states with
    | nil => simp [checkAll]
    | cons status states =>
      rw [checkAll, List.mem_append, ih]
      constructor
      · rintro (hhead | ⟨k, q, status', hq, hs, hpush, rfl⟩)
        · split_ifs at hhead with hpush
          · exact ⟨0, p, status, rfl, rfl, hpush, List.mem_singleton.mp hhead⟩
          · simp at hhead
        · exact ⟨k + 1, q, status', hq, hs, hpush, by rw [Nat.add_right_comm, Nat.add_assoc]⟩
      · rintro ⟨k, q, status', hq, hs, hpush, rfl⟩
        cases k with
        | zero =>
          obtain rfl := Option.some.inj hq
          obtain rfl := Option.some.inj hs
          exact Or.inl (by rw [if_pos hpush]; exact List.mem_singleton_self _)
        | succ k =>
          exact Or.inr ⟨k, q, status', hq, hs, hpush, by rw [Nat.add_right_comm, Nat.add_assoc]⟩

/-- The violations name positions of properties, and those are the violated ones. -/
structure Inv (m : Monitor F) : Prop where
  bound : ∀ v ∈ m.violations, v.1 < m.properties.length
  records : ∀ i status, m.states[i]? = some status → (m.Records i ↔ status = .violated)

theorem inv_new : (new : Monitor F).Inv where
  bound := by simp [new]
  records := by simp [new]

theorem Inv.addProperty {m : Monitor F} (h : m.Inv) (p : Property F) : (m.addProperty p).Inv := by
  constructor
  · intro v hv
    exact (h.bound v hv).trans_le (by simp [Monitor.addProperty])
  · intro i status hi
    rcases Nat.lt_trichotomy i m.states.length with hlt | rfl | hgt
    · rw [Monitor.addProperty, List.getElem?_append_left hlt] at hi
      exact h.records i status hi
    · -- the new property is idle, and no violation is as far up
      rw [Monitor.addProperty, List.getElem?_concat_length] at hi
      obtain rfl := Option.some.inj hi
      refine iff_of_false (fun ⟨v, hv, hvi⟩ => ?_) (by simp)
      have hbound := h.bound v hv
      rw [hvi, m.sameLength] at hbound
      exact lt_irrefl _ hbound
    · obtain ⟨hlt, -⟩ := List.getElem?_eq_some_iff.mp hi
      rw [Monitor.addProperty, List.length_append, List.length_singleton] at hlt
      omega

theorem getElem?_states {m : Monitor F} {i : Nat} {p : Property F} {status : PropertyStatus}
    (hp : m.properties[i]? = some p) (hs : m.states[i]? = some status)
    (event : MonitorEvent F) :
    (m.step event).states[i]? = some (p.check event status).1 := by
  rw [step, getElem?_checkAll, hp, hs]
  rfl

theorem exists_property {m : Monitor F} {i : Nat} {status : PropertyStatus}
    (hs : m.states[i]? = some status) : ∃ p, m.properties[i]? = some p := by
  obtain ⟨hlt, -⟩ := List.getElem?_eq_some_iff.mp hs
  exact ⟨_, List.getElem?_eq_getElem (m.sameLength ▸ hlt)⟩

theorem Inv.step {m : Monitor F} (h : m.Inv) (event : MonitorEvent F) : (m.step event).Inv := by
  constructor
  · intro v hv
    rcases List.mem_append.mp hv with hold | hnew
    · exact h.bound v hold
    · obtain ⟨k, p, status, hp, -, -, rfl⟩ := (mem_checkAll ..).mp hnew
      rw [Nat.zero_add]
      exact (List.getElem?_eq_some_iff.mp hp).1
  · intro i status' hi
    obtain ⟨p, hp⟩ : ∃ p, m.properties[i]? = some p :=
      exists_property (m := m.step event) hi
    obtain ⟨status, hs⟩ : ∃ status, m.states[i]? = some status :=
      ⟨_, List.getElem?_eq_getElem (m.sameLength ▸ (List.getElem?_eq_some_iff.mp hp).1)⟩
    obtain rfl : (p.check event status).1 = status' :=
      Option.some.inj ((getElem?_states hp hs event).symm.trans hi)
    have hold := h.records i status hs
    constructor
    · rintro ⟨v, hv, rfl⟩
      rcases List.mem_append.mp hv with hbefore | hnow
      · rw [hold.mp ⟨v, hbefore, rfl⟩]
        exact p.check_violated event
      · obtain ⟨k, q, status', hq, hs', hpush, rfl⟩ := (mem_checkAll ..).mp hnow
        dsimp only at hp hs
        rw [Nat.zero_add] at hp hs
        obtain rfl := Option.some.inj (hp.symm.trans hq)
        obtain rfl := Option.some.inj (hs.symm.trans hs')
        exact ((p.check_pushes event status).mp hpush).1
    · intro hviolated
      by_cases hbefore : status = .violated
      · obtain ⟨v, hv, hvi⟩ := hold.mpr hbefore
        exact ⟨v, List.mem_append_left _ hv, hvi⟩
      · have hpush := (p.check_pushes event status).mpr ⟨hviolated, hbefore⟩
        refine ⟨_, List.mem_append_right _ ((mem_checkAll ..).mpr
          ⟨i, p, status, hp, hs, hpush, rfl⟩), Nat.zero_add i⟩

end Monitor

/-! ## Runs -/

inductive MonitorOp (F : Type) where
  | addProperty (p : Property F)
  | step (event : MonitorEvent F)

namespace Monitor

def after (m : Monitor F) : MonitorOp F → Monitor F
  | .addProperty p => m.addProperty p
  | .step event => m.step event

/-- The events among the calls. -/
def events (ops : List (MonitorOp F)) : List (MonitorEvent F) :=
  ops.filterMap fun
    | .addProperty _ => none
    | .step event => some event

theorem inv_run (ops : List (MonitorOp F)) : (run after new ops).Inv := by
  refine run_invariant (P := fun _ _ => True) (fun m op h _ => ?_) inv_new
    (along_iff.mpr fun _ _ _ _ => trivial)
  cases op with
  | addProperty p => exact h.addProperty p
  | step event => exact h.step event

/-- Registering another property leaves the ones before it in their places. -/
theorem getElem?_addProperty {m : Monitor F} {i : Nat} {p : Property F} {status : PropertyStatus}
    (hp : m.properties[i]? = some p) (hs : m.states[i]? = some status) (q : Property F) :
    (m.addProperty q).properties[i]? = some p ∧ (m.addProperty q).states[i]? = some status := by
  constructor
  · rw [Monitor.addProperty, List.getElem?_append_left (List.getElem?_eq_some_iff.mp hp).1]
    exact hp
  · rw [Monitor.addProperty, List.getElem?_append_left (List.getElem?_eq_some_iff.mp hs).1]
    exact hs

/-- A property keeps its place, and sees the events one after the other. -/
theorem getElem?_run {m : Monitor F} {i : Nat} {p : Property F} {status : PropertyStatus}
    (hp : m.properties[i]? = some p) (hs : m.states[i]? = some status)
    (ops : List (MonitorOp F)) :
    (run after m ops).states[i]? =
      some (run (fun status event => (p.check event status).1) status (events ops)) := by
  induction ops generalizing m status with
  | nil => exact hs
  | cons op ops ih =>
    cases op with
    | addProperty q =>
      obtain ⟨hp', hs'⟩ := getElem?_addProperty hp hs q
      exact ih (m := m.addProperty q) hp' hs'
    | step event => exact ih (m := m.step event) hp (getElem?_states hp hs event)

/-- A property registered after any calls is reported exactly if its own automaton ends up
violated on the events that follow. -/
theorem records_iff (before later : List (MonitorOp F)) (p : Property F) :
    (run after ((run after new before).addProperty p) later).Records
        (run after new before).properties.length ↔
      run (fun status event => (p.check event status).1) .idle (events later) = .violated := by
  have hinv : (run after new (before ++ .addProperty p :: later)).Inv := inv_run _
  rw [run_append, run_cons] at hinv
  refine hinv.records _ _ (getElem?_run ?_ ?_ later)
  · exact List.getElem?_concat_length
  · rw [← (run after new before).sameLength]
    exact List.getElem?_concat_length

end Monitor

theorem Property.watch_run {p : Property F} {n : Nat} {pred : Predicate F}
    (h : p.obligation = .within n pred) (status : PropertyStatus)
    (events : List (MonitorEvent F)) :
    (run (fun status event => (p.check event status).1) status events).watch =
      run (Watch.step p.Triggers (p.OwnAnswer pred) n) status.watch events := by
  induction events generalizing status with
  | nil => rfl
  | cons event events ih => rw [run_cons, run_cons, ih, watch_check h]

/-- The monitor watches the first trigger, and for answers on the property's own stream. -/
theorem within_records_iff_first (before later : List (MonitorOp F)) (name : String)
    (stream : Stream) (guard : Option (Predicate F)) (n : Nat) (pred : Predicate F) :
    let p : Property F := { name, stream, guard, obligation := .within n pred }
    (run Monitor.after ((run Monitor.after .new before).addProperty p) later).Records
        (run Monitor.after .new before).properties.length ↔
      FirstUnanswered p.Triggers (p.OwnAnswer pred) n (Monitor.events later) := by
  intro p
  rw [Monitor.records_iff, ← PropertyStatus.watch_eq_violated, p.watch_run rfl]
  exact Watch.run_idle _

theorem not_ownAnswer_criticalResponse (n : Nat) (event : MonitorEvent F) :
    ¬(Property.criticalResponse n).OwnAnswer (actionKindNot "none") event := by
  rintro ⟨hstream, hanswer⟩
  cases event <;> simp_all [Property.criticalResponse, matchesStream, actionKindNot]

theorem triggers_criticalResponse (n : Nat) (event : MonitorEvent F) :
    (Property.criticalResponse n).Triggers event ↔ event = .alert "critical" := by
  cases event <;>
    simp [Property.Triggers, Property.criticalResponse, Property.guardMatches, matchesStream,
      severityEquals]

/-- An alert is never an action, so `critical_response` is violated as soon as `n` events of
any kind follow the first critical alert. -/
theorem criticalResponse_records_iff (before later : List (MonitorOp F)) (n : Nat) :
    (run Monitor.after ((run Monitor.after .new before).addProperty (.criticalResponse n))
        later).Records (run Monitor.after .new before).properties.length ↔
      ∃ as rest, Monitor.events later = as ++ .alert "critical" :: rest ∧
        .alert "critical" ∉ as ∧ n ≤ rest.length := by
  refine (within_records_iff_first before later "critical_response" .alert
    (some (severityEquals "critical")) n (actionKindNot "none")).trans ?_
  constructor
  · rintro ⟨as, e, window, rest, hes, has, he, rfl, -⟩
    obtain rfl := (triggers_criticalResponse _ e).mp he
    refine ⟨as, window ++ rest, hes, fun hmem => ?_, by simp⟩
    exact has _ hmem ((triggers_criticalResponse _ _).mpr rfl)
  · rintro ⟨as, rest, hes, has, hlong⟩
    refine ⟨as, _, rest.take n, rest.drop n, by rw [List.take_append_drop]; exact hes,
      fun a ha htrigger => ?_, (triggers_criticalResponse n _).mpr rfl,
      List.length_take_of_le hlong, fun x _ => not_ownAnswer_criticalResponse n x⟩
    exact has ((triggers_criticalResponse n a).mp htrigger ▸ ha)

/-- **Bounded response.**  The monitor reports a `within` property registered after any calls
exactly on the traces with an unanswered trigger, if and only if two things do not happen:
only another stream's event answers the first trigger in time while no trigger goes
unanswered, and the first trigger is answered on its own stream while another goes
unanswered. -/
theorem within_records_iff (before later : List (MonitorOp F)) (name : String)
    (stream : Stream) (guard : Option (Predicate F)) (n : Nat) (pred : Predicate F) :
    let p : Property F := { name, stream, guard, obligation := .within n pred }
    let answers := fun event => pred event = true
    let reported :=
      (run Monitor.after ((run Monitor.after .new before).addProperty p) later).Records
        (run Monitor.after .new before).properties.length
    (reported ↔ Unanswered p.Triggers answers n (Monitor.events later)) ↔
      (FirstOverlooked p.Triggers answers (p.OwnAnswer pred) n (Monitor.events later) →
        Unanswered p.Triggers answers n (Monitor.events later)) ∧
      (FirstAnswered p.Triggers (p.OwnAnswer pred) n (Monitor.events later) →
        ¬Unanswered p.Triggers answers n (Monitor.events later)) := by
  intro p answers reported
  rw [← firstUnanswered_iff_unanswered]
  exact iff_congr (within_records_iff_first before later name stream guard n pred) Iff.rfl

/-- An action answers the critical alert, and is not looked at; then a second critical alert
goes unanswered behind one that answers itself. -/
theorem within_records_fails :
    let critical : MonitorEvent Nat := .alert "critical"
    let quarantined : MonitorEvent Nat := .action "quarantine" 80
    let idle : MonitorEvent Nat := .sample 0 90
    let low : Property Nat :=
      { name := "battery_recovery", stream := .sample, guard := none,
        obligation := .within 1 fun event => event = idle }
    let reported := fun (p : Property Nat) events =>
      (run Monitor.after (Monitor.new.addProperty p) (events.map .step)).violations
    (reported (.criticalResponse 3) [critical, quarantined, idle, idle] ≠ [] ∧
      ¬Unanswered (Property.criticalResponse 3).Triggers
        (fun event => actionKindNot "none" event = true) 3 [critical, quarantined, idle, idle]) ∧
      reported low [idle, critical, .sample 5 5, critical, critical] = [] ∧
      Unanswered low.Triggers (fun event => (event = idle)) 1
        [idle, critical, .sample 5 5, critical, critical] := by
  decide

end Wardex.Temporal
