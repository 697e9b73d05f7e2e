import Mathlib.Data.Rat.Defs
import Mathlib.Tactic.Linarith
import Wardex.Events.Correlation

/-! What the correlation does to an event: its score is raised and its level is read off the raised
score, whatever level had been reported. -/

namespace Wardex.Events

open Wardex.Lib Wardex.Enrollment

variable {A : Type}

def severityRank (level : String) : Nat :=
  let level := toAsciiLowercase level
  if level = "critical" then 3
  else if level = "severe" then 2
  else if level = "elevated" then 1
  else 0

/-- The scores as exact rationals. -/
def exactScores : ScoreOps ℚ where
  boost score := min (score + 3 / 2) 10
  atLeast score bound := bound ≤ score

def exactEnv (chrono : Chrono) (order : IterationOrder String) : StoreEnv ℚ :=
  ⟨chrono, exactScores, order⟩

/-- The rank of the level that a score is given when it is raised. -/
def raisedRank (score : ℚ) : Nat :=
  if 13 / 2 ≤ score then 3
  else if 9 / 2 ≤ score then 2
  else if 5 / 2 ≤ score then 1
  else 0

variable (env : StoreEnv ℚ)

/-- What may become of an event that entered as `e`. -/
structure Escalated (e e' : StoredEvent ℚ A) : Prop where
  once : e' = e ∨ e.correlated = false ∧ e' = e.markCorrelated env
  score : e.alert.score ≤ 10 → e.alert.score ≤ e'.alert.score
  level : e.alert.score ≤ 10 → severityRank e.alert.level ≤ severityRank e'.alert.level

/-- The event store, and its events as they were when they entered it. -/
structure EscalationWorld (A : Type) where
  store : EventStore ℚ A
  entered : List (StoredEvent ℚ A)

namespace EscalationWorld

def start (store : EventStore ℚ A) : EscalationWorld A := ⟨store, store.events⟩

/-- The store with the events that it holds, as they were when they entered. -/
def unchanged (w : EscalationWorld A) : EventStore ℚ A := { w.store with events := w.entered }

def after (w : EscalationWorld A) (ingestion : EventBatch ℚ A × Int) : EscalationWorld A where
  store := (w.store.ingest env ingestion.1 ingestion.2).1
  entered := (w.unchanged.push env ingestion.1 ingestion.2).events

def Escalates (w : EscalationWorld A) : Prop :=
  List.Forall₂ (Escalated env) w.entered w.store.events

/-- No event that the ingestion marks was reported with a level above that of its raised score. -/
def Graded (w : EscalationWorld A) (ingestion : EventBatch ℚ A × Int) : Prop :=
  let pushed := w.store.push env ingestion.1 ingestion.2
  ∀ e ∈ pushed.events, pushed.Marks env e →
    severityRank e.alert.level ≤ raisedRank e.alert.score

end EscalationWorld

/-! ## One event -/

variable {env} {chrono : Chrono} {order : IterationOrder String} {e e' : StoredEvent ℚ A}

theorem Escalated.refl (e : StoredEvent ℚ A) : Escalated env e e :=
  ⟨.inl rfl, fun _ => le_refl _, fun _ => le_refl _⟩

/-- An event that is not yet correlated is as it entered. -/
theorem Escalated.eq_of_pending (h : Escalated env e e') (hpending : e'.correlated = false) :
    e' = e := by
  rcases h.once with heq | ⟨-, heq⟩
  · exact heq
  · have hmarked : e'.correlated = true := heq ▸ rfl
    exact absurd (hpending.symm.trans hmarked) Bool.noConfusion

theorem severityRank_le_three (level : String) : severityRank level ≤ 3 := by
  unfold severityRank
  dsimp only
  split_ifs <;> omega

theorem raise_atLeast (bound : Nat) (hbound : bound ≤ 10) (score : ℚ) :
    exactScores.atLeast (exactScores.boost score) bound ↔ (bound : ℚ) - 3 / 2 ≤ score := by
  have hle : (bound : ℚ) ≤ 10 := by exact_mod_cast hbound
  change decide ((bound : ℚ) ≤ min (score + 3 / 2) 10) = true ↔ _
  rw [decide_eq_true_iff, le_min_iff, and_iff_left hle, sub_le_iff_le_add]

theorem severityRank_markCorrelated (e : StoredEvent ℚ A) :
    severityRank (e.markCorrelated (exactEnv chrono order)).alert.level =
      raisedRank e.alert.score := by
  have hcritical := raise_atLeast 8 (by omega) e.alert.score
  have hsevere := raise_atLeast 6 (by omega) e.alert.score
  have helevated := raise_atLeast 4 (by omega) e.alert.score
  norm_num at hcritical hsevere helevated
  change severityRank (if exactScores.atLeast (exactScores.boost e.alert.score) 8 then "Critical"
    else if exactScores.atLeast (exactScores.boost e.alert.score) 6 then "Severe"
    else if exactScores.atLeast (exactScores.boost e.alert.score) 4 then "Elevated"
    else "Nominal") = _
  rw [raisedRank]
  simp only [hcritical, hsevere, helevated]
  split_ifs <;> rfl

theorem score_le_markCorrelated (h : e.alert.score ≤ 10) :
    e.alert.score ≤ (e.markCorrelated (exactEnv chrono order)).alert.score := by
  change e.alert.score ≤ min (e.alert.score + 3 / 2) 10
  exact le_min (by linarith) h

/-- Above the highest score nothing is asked of the level, and the raised one is the highest. -/
theorem escalated_markCorrelated_iff (hpending : e.correlated = false) :
    Escalated (exactEnv chrono order) e (e.markCorrelated (exactEnv chrono order)) ↔
      severityRank e.alert.level ≤ raisedRank e.alert.score := by
  constructor
  · intro h
    by_cases hscore : e.alert.score ≤ 10
    · exact (h.level hscore).trans_eq (severityRank_markCorrelated e)
    · have hraised : raisedRank e.alert.score = 3 := if_pos (by linarith)
      exact hraised ▸ severityRank_le_three e.alert.level
  · intro h
    exact ⟨.inr ⟨hpending, rfl⟩, score_le_markCorrelated,
      fun _ => h.trans_eq (severityRank_markCorrelated e).symm⟩

/-! ## One ingestion -/

theorem forall₂_iff_getElem? {α β : Type*} {R : α → β → Prop} {l : List α} {m : List β} :
    List.Forall₂ R l m ↔ l.length = m.length ∧
      ∀ (i : Nat) a b, l[i]? = some a → m[i]? = some b → R a b := by
  rw [List.forall₂_iff_get]
  refine and_congr_right fun _ => ⟨?_, ?_⟩
  · rintro h i a b ha hb
    obtain ⟨hi, rfl⟩ := List.getElem?_eq_some_iff.mp ha
    obtain ⟨hj, rfl⟩ := List.getElem?_eq_some_iff.mp hb
    exact h i hi hj
  · intro h i hi hj
    exact h i _ _ (List.getElem?_eq_getElem hi) (List.getElem?_eq_getElem hj)

namespace EscalationWorld

variable {w : EscalationWorld A} {ingestion : EventBatch ℚ A × Int}

/-- The events of a push enter both lists, and both lists are trimmed alike. -/
theorem escalates_push (ingestion : EventBatch ℚ A × Int) (h : w.Escalates env) :
    List.Forall₂ (Escalated env) (w.after env ingestion).entered
      (w.store.push env ingestion.1 ingestion.2).events := by
  let received := EventStore.receivedEvents ingestion.1.agentId (env.chrono.format ingestion.2)
    w.store.nextId ingestion.1.events
  have hreceived : List.Forall₂ (Escalated env) received received :=
    List.forall₂_same.mpr fun e _ => .refl e
  have hall : List.Forall₂ (Escalated env) (w.entered ++ received) (w.store.events ++ received) :=
    List.rel_append h hreceived
  change List.Forall₂ (Escalated env)
    ((w.entered ++ received).drop ((w.entered ++ received).length - w.store.maxEvents))
    ((w.store.events ++ received).drop ((w.store.events ++ received).length - w.store.maxEvents))
  rw [hall.length_eq]
  exact List.forall₂_drop _ hall

theorem escalates_after_iff (h : w.Escalates (exactEnv chrono order)) :
    (w.after (exactEnv chrono order) ingestion).Escalates (exactEnv chrono order) ↔
      w.Graded (exactEnv chrono order) ingestion := by
  set env := exactEnv chrono order with henv
  obtain ⟨hlength, hpushed⟩ := forall₂_iff_getElem?.mp (escalates_push ingestion h)
  rw [Escalates, forall₂_iff_getElem?]
  constructor
  · rintro ⟨-, hescalated⟩ e he hmarks
    obtain ⟨i, hi⟩ := List.mem_iff_getElem?.mp he
    obtain ⟨hlt, -⟩ := List.getElem?_eq_some_iff.mp hi
    have hentered := List.getElem?_eq_getElem (hlength.trans_gt hlt)
    have hsame := (hpushed i _ e hentered hi).eq_of_pending hmarks.pending
    have hmarked := hescalated i _ _ hentered (getElem?_correlate_of_marks hi hmarks)
    rw [← hsame] at hmarked
    exact (escalated_markCorrelated_iff hmarks.pending).mp hmarked
  · intro hgraded
    refine ⟨hlength.trans (EventStore.length_correlateGroups _ _ _).symm, fun i e e' he he' => ?_⟩
    have hlt : i < (w.store.push env ingestion.1 ingestion.2).events.length :=
      hlength ▸ (List.getElem?_eq_some_iff.mp he).1
    have hi := List.getElem?_eq_getElem hlt
    have hkept := hpushed i e _ he hi
    by_cases hmarks : (w.store.push env ingestion.1 ingestion.2).Marks env
      (w.store.push env ingestion.1 ingestion.2).events[i]
    · obtain rfl := Option.some.inj ((getElem?_correlate_of_marks hi hmarks).symm.trans he')
      have hsame := hkept.eq_of_pending hmarks.pending
      have hrank := hgraded _ (List.mem_of_getElem? hi) hmarks
      rw [hsame] at hrank ⊢
      exact (escalated_markCorrelated_iff (hsame ▸ hmarks.pending)).mpr hrank
    · obtain rfl := Option.some.inj ((getElem?_correlate_of_not_marks hi hmarks).symm.trans he')
      exact hkept

/-- Every ingestion of a run only escalates what it holds, if and only if none marks an event that
was reported with a level above that of its raised score. -/
theorem correlation_escalates_iff (chrono : Chrono) (order : IterationOrder String)
    (store : EventStore ℚ A) (ingestions : List (EventBatch ℚ A × Int)) :
    Throughout (after (exactEnv chrono order)) (Escalates (exactEnv chrono order)) (start store)
        ingestions ↔
      Along (after (exactEnv chrono order)) (Graded (exactEnv chrono order)) (start store)
        ingestions := by
  refine throughout_iff_along (I := Escalates (exactEnv chrono order))
    (fun w i hw hi => (escalates_after_iff hw).mpr hi) (fun w hw => hw)
    (fun w i hw hi => (escalates_after_iff hw).mp hi) ?_
  exact List.forall₂_same.mpr fun e _ => .refl e

/-- Two agents report the same at once, at a score of five and as critical. -/
def criticalReports : List (EventBatch ℚ Unit × Int) :=
  [(⟨"agent-1", [⟨5, "critical", ["high_cpu"], [], ()⟩]⟩, 0),
    (⟨"agent-2", [⟨5, "critical", ["high_cpu"], [], ()⟩]⟩, 0)]

/-- Both are severe from then on. -/
theorem criticalReports_lowered : ¬ Throughout (after (exactEnv firstHour insertionOrder))
    (Escalates (exactEnv firstHour insertionOrder)) (start (.new 100)) criticalReports := by
  intro h
  obtain ⟨-, hlast⟩ := forall₂_iff_getElem?.mp h.2.2
  have hlevel := (hlast 0 _ _ rfl rfl).level (by decide +kernel)
  exact absurd hlevel (by decide +kernel)

end EscalationWorld

end Wardex.Events
