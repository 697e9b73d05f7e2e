import Mathlib.Algebra.Order.Ring.Rat
import Mathlib.Data.Int.ConditionallyCompleteOrder
import Mathlib.Data.List.MinMax
import Mathlib.Order.ConditionallyCompleteLattice.Basic
import Wardex.Swarm.Gossip

/-! The policy engine, and the composition of policies: the decisions of several rules, some of
which may abstain, are folded into one.  Scores and percentages are exact. -/

namespace Wardex.Swarm

/-- The derived order of the levels. -/
def ThreatLevel.rank : ThreatLevel → ℕ
  | nominal => 0
  | elevated => 1
  | severe => 2
  | critical => 3

end Wardex.Swarm

namespace Wardex.Policy

open Swarm (ThreatLevel)

inductive ResponseAction where
  | observe
  | rateLimit
  | quarantine
  | rollbackAndEscalate
deriving DecidableEq

structure PolicyDecision where
  level : ThreatLevel
  action : ResponseAction
  isolationPct : UInt8
  rationale : String
deriving DecidableEq

structure AnomalySignal where
  score : ℚ
  confidence : ℚ

structure TelemetrySample where
  batteryPct : ℚ
  integrityDrift : ℚ

/-! ## The engine -/

namespace PolicyEngine

def level (signal : AnomalySignal) (sample : TelemetrySample) : ThreatLevel :=
  if sample.integrityDrift ≥ 45 / 100 ∨ signal.score ≥ 52 / 10 then .critical
  else if signal.score ≥ 3 then .severe
  else if signal.score ≥ 14 / 10 then .elevated
  else .nominal

def action : ThreatLevel → ResponseAction
  | .nominal => .observe
  | .elevated => .rateLimit
  | .severe => .quarantine
  | .critical => .rollbackAndEscalate

def isolationPct : ResponseAction → UInt8
  | .observe => 0
  | .rateLimit => 30
  | .quarantine => 75
  | .rollbackAndEscalate => 100

/-- On a low battery, what to do at a level instead, and why. -/
def softened (sample : TelemetrySample) (level : ThreatLevel) :
    ThreatLevel × ResponseAction × UInt8 × List String :=
  let action := action level
  let asIs := (level, action, isolationPct action, [])
  if sample.batteryPct < 20 then
    match action with
    | .quarantine =>
      (if level.rank < ThreatLevel.elevated.rank then .elevated else level, .rateLimit, 45,
        ["battery under 20%, softening quarantine to preserve runtime"])
    | .rollbackAndEscalate =>
      if sample.integrityDrift < 45 / 100 then
        (.severe, .quarantine, 85,
          ["battery under 20%, deferring rollback but keeping aggressive isolation"])
      else asIs
    | _ => asIs
  else asIs

/-- `describe` formats the score and the confidence in percent. -/
def evaluate (describe : ℚ → ℚ → String) (signal : AnomalySignal) (sample : TelemetrySample) :
    PolicyDecision :=
  let (level, action, isolationPct, reasons) := softened sample (level signal sample)
  let drift := if sample.integrityDrift ≥ 45 / 100 then
    ["integrity drift crossed the critical threshold"] else []
  ⟨level, action, isolationPct,
    "; ".intercalate (describe signal.score (signal.confidence * 100) :: (reasons ++ drift))⟩

end PolicyEngine

/-! ## Composition -/

/-- A rule may abstain. -/
abbrev PolicyRule := AnomalySignal → TelemetrySample → Option PolicyDecision

inductive CompositionOp where
  | maxSeverity
  | minSeverity
  | leftPriority
  | rightPriority
deriving DecidableEq

def CompositionOp.debug : CompositionOp → String
  | maxSeverity => "MaxSeverity"
  | minSeverity => "MinSeverity"
  | leftPriority => "LeftPriority"
  | rightPriority => "RightPriority"

structure PolicyConflict where
  leftLevel : ThreatLevel
  leftAction : ResponseAction
  rightLevel : ThreatLevel
  rightAction : ResponseAction
  resolution : String

def choose (op : CompositionOp) (l r : PolicyDecision) : PolicyDecision :=
  match op with
  | .maxSeverity => if l.level.rank ≥ r.level.rank then l else r
  | .minSeverity => if l.level.rank ≤ r.level.rank then l else r
  | .leftPriority => l
  | .rightPriority => r

def composeDecisions (left right : Option PolicyDecision) (op : CompositionOp) :
    Option PolicyDecision × Option PolicyConflict :=
  match left, right with
  | none, none => (none, none)
  | some l, none => (some l, none)
  | none, some r => (some r, none)
  | some l, some r =>
    let conflict :=
      if l.level ≠ r.level ∨ l.action ≠ r.action then
        some ⟨l.level, l.action, r.level, r.action, op.debug⟩
      else none
    (some (choose op l r), conflict)

structure CompositePolicy where
  rules : List (String × PolicyRule)
  op : CompositionOp

namespace CompositePolicy

def evaluate (policy : CompositePolicy) (signal : AnomalySignal) (sample : TelemetrySample) :
    Option PolicyDecision × List PolicyConflict :=
  policy.rules.foldl (fun (combined, conflicts) rule =>
    let (merged, conflict) := composeDecisions combined (rule.2 signal sample) policy.op
    (merged, conflicts ++ conflict.toList)) (none, [])

/-- What the rules that do not abstain decide, in the order of the rules. -/
def decisions (rules : List (String × PolicyRule)) (signal : AnomalySignal)
    (sample : TelemetrySample) : List PolicyDecision :=
  rules.filterMap fun rule => rule.2 signal sample

end CompositePolicy

/-! ## The first of the most preferred decisions -/

/-- How much a composition by severity prefers a decision. -/
def CompositionOp.preference : CompositionOp → PolicyDecision → ℤ
  | minSeverity, d => -d.level.rank
  | _, d => d.level.rank

/-- A most severe decision, or a least severe one, as the operator has it. -/
def CompositionOp.Preferred (op : CompositionOp) (ds : List PolicyDecision)
    (d : PolicyDecision) : Prop :=
  d ∈ ds ∧ ∀ e ∈ ds, op.preference e ≤ op.preference d

/-- What a decision amounts to, its rationale aside. -/
def PolicyDecision.outcome (d : PolicyDecision) : ThreatLevel × ResponseAction × UInt8 :=
  (d.level, d.action, d.isolationPct)

variable {op : CompositionOp} {d e : PolicyDecision} {rules rules' : List (String × PolicyRule)}

theorem ThreatLevel.rank_injective : Function.Injective ThreatLevel.rank := by
  intro l l' h
  cases l <;> cases l' <;> first | rfl | cases h

theorem level_eq_of_preference_eq (h : op.preference d = op.preference e) : d.level = e.level := by
  apply ThreatLevel.rank_injective
  cases op <;> simp only [CompositionOp.preference] at h <;> omega

theorem choose_eq (hop : op = .maxSeverity ∨ op = .minSeverity) :
    choose op d e = if op.preference d < op.preference e then e else d := by
  rcases hop with rfl | rfl
  · change (if d.level.rank ≥ e.level.rank then d else e) =
      if (d.level.rank : ℤ) < e.level.rank then e else d
    by_cases h : d.level.rank < e.level.rank
    · rw [if_neg (by omega), if_pos (by omega)]
    · rw [if_pos (by omega), if_neg (by omega)]
  · change (if d.level.rank ≤ e.level.rank then d else e) =
      if -(d.level.rank : ℤ) < -e.level.rank then e else d
    by_cases h : e.level.rank < d.level.rank
    · rw [if_neg (by omega), if_pos (by omega)]
    · rw [if_pos (by omega), if_neg (by omega)]

namespace CompositePolicy

variable {signal : AnomalySignal} {sample : TelemetrySample}

/-- The fold keeps the first decision that the operator prefers most. -/
theorem evaluate_eq_argmax (hop : op = .maxSeverity ∨ op = .minSeverity) :
    (evaluate ⟨rules, op⟩ signal sample).1 =
      (decisions rules signal sample).argmax op.preference := by
  induction rules using List.reverseRecOn with
  | nil => rfl
  | append_singleton rules rule ih =>
    rw [evaluate] at ih ⊢
    rw [List.foldl_concat, decisions, List.filterMap_append]
    dsimp only at ih ⊢
    rw [ih, ← decisions]
    cases hrule : rule.2 signal sample with
    | none =>
      simp only [List.filterMap_cons, hrule, List.filterMap_nil, List.append_nil]
      cases (decisions rules signal sample).argmax op.preference <;> rfl
    | some d =>
      simp only [List.filterMap_cons, hrule, List.filterMap_nil]
      rw [List.argmax_concat]
      cases (decisions rules signal sample).argmax op.preference with
      | none => rfl
      | some c =>
        simp only [composeDecisions, choose_eq hop]
        split_ifs <;> rfl

/-- A decision before which no other is preferred as much. -/
def FirstPreferred (op : CompositionOp) (ds : List PolicyDecision) (d : PolicyDecision) : Prop :=
  ∃ front back, ds = front ++ d :: back ∧ op.Preferred ds d ∧ ∀ e ∈ front, ¬ op.Preferred ds e

theorem argmax_of_first {α β : Type*} [LinearOrder β] {f : α → β} {front back : List α} {m : α}
    (hfront : ∀ a ∈ front, f a < f m) (hback : ∀ a ∈ back, f a ≤ f m) :
    (front ++ m :: back).argmax f = some m := by
  induction front with
  | nil =>
    rw [List.nil_append, List.argmax_cons]
    cases hlargest : back.argmax f with
    | none => rfl
    | some c => exact if_neg (hback c (List.argmax_mem hlargest)).not_gt
  | cons a front ih =>
    rw [List.cons_append, List.argmax_cons, ih fun b hb => hfront b (List.mem_cons_of_mem a hb)]
    exact if_pos (hfront a List.mem_cons_self)

theorem argmax_eq_some_iff_first {ds : List PolicyDecision} :
    ds.argmax op.preference = some d ↔ FirstPreferred op ds d := by
  constructor
  · intro h
    have hpreferred : op.Preferred ds d :=
      ⟨List.argmax_mem h, fun e he => List.le_of_mem_argmax he h⟩
    obtain ⟨hmem, -, hindex⟩ := List.mem_argmax_iff.mp h
    obtain ⟨front, back, rfl, hnot⟩ := List.eq_append_cons_of_mem hmem
    refine ⟨front, back, rfl, hpreferred, fun e he hequal => ?_⟩
    have hle := hindex e hequal.1 (hequal.2 d hmem)
    rw [List.idxOf_append_of_mem he, List.idxOf_append_of_notMem hnot] at hle
    exact absurd (List.idxOf_lt_length_iff.mpr he) (by omega)
  · rintro ⟨front, back, rfl, hpreferred, hfirst⟩
    have hlt : ∀ e ∈ front, op.preference e < op.preference d := by
      intro e he
      have hmem : e ∈ front ++ d :: back := List.mem_append_left _ he
      refine lt_of_not_ge fun hle => hfirst e he ⟨hmem, fun e' he' => ?_⟩
      exact (hpreferred.2 e' he').trans hle
    exact argmax_of_first hlt fun e he =>
      hpreferred.2 e (List.mem_append_right _ (List.mem_cons_of_mem d he))

theorem mem_decisions :
    d ∈ decisions rules signal sample ↔ ∃ rule ∈ rules, rule.2 signal sample = some d :=
  List.mem_filterMap

/-- Whichever of the rules that decide is asked first, its decision comes first. -/
theorem exists_perm_decisions (h : d ∈ decisions rules signal sample) :
    ∃ rules', rules'.Perm rules ∧ ∃ ds, decisions rules' signal sample = d :: ds := by
  obtain ⟨rule, hrule, hd⟩ := mem_decisions.mp h
  obtain ⟨front, back, rfl⟩ := List.append_of_mem hrule
  refine ⟨rule :: (front ++ back), List.perm_middle.symm,
    decisions (front ++ back) signal sample, ?_⟩
  exact List.filterMap_cons_some (f := fun rule : String × PolicyRule => rule.2 signal sample) hd

/-- The composition decides something in every order of the rules or in none, and always a most
preferred decision. -/
theorem evaluate_perm (hop : op = .maxSeverity ∨ op = .minSeverity) (h : rules'.Perm rules) :
    ((evaluate ⟨rules', op⟩ signal sample).1 = none ∧
      (evaluate ⟨rules, op⟩ signal sample).1 = none) ∨
    ∃ d e, (evaluate ⟨rules', op⟩ signal sample).1 = some d ∧
      (evaluate ⟨rules, op⟩ signal sample).1 = some e ∧
      op.Preferred (decisions rules signal sample) d ∧
      op.Preferred (decisions rules signal sample) e := by
  have hperm : (decisions rules' signal sample).Perm (decisions rules signal sample) :=
    h.filterMap _
  rw [evaluate_eq_argmax hop, evaluate_eq_argmax hop]
  cases hd : (decisions rules' signal sample).argmax op.preference with
  | none =>
    refine .inl ⟨rfl, List.argmax_eq_none.mpr ?_⟩
    rw [List.argmax_eq_none.mp hd] at hperm
    exact hperm.nil_eq.symm
  | some d =>
    cases he : (decisions rules signal sample).argmax op.preference with
    | none =>
      rw [List.argmax_eq_none.mp he] at hperm
      exact absurd (hperm.eq_nil ▸ List.argmax_mem hd) List.not_mem_nil
    | some e =>
      refine .inr ⟨d, e, rfl, rfl, ⟨hperm.subset (List.argmax_mem hd), fun c hc => ?_⟩,
        List.argmax_mem he, fun c hc => List.le_of_mem_argmax hc he⟩
      exact List.le_of_mem_argmax (hperm.symm.subset hc) hd

theorem exists_perm_evaluate (hop : op = .maxSeverity ∨ op = .minSeverity)
    (h : op.Preferred (decisions rules signal sample) d) :
    ∃ rules', rules'.Perm rules ∧ (evaluate ⟨rules', op⟩ signal sample).1 = some d := by
  obtain ⟨rules', hperm, ds, hds⟩ := exists_perm_decisions h.1
  refine ⟨rules', hperm, ?_⟩
  rw [evaluate_eq_argmax hop, hds]
  have hback : ∀ e ∈ ds, op.preference e ≤ op.preference d := by
    intro e he
    have hmem : e ∈ decisions rules' signal sample := by
      rw [hds]
      exact List.mem_cons_of_mem d he
    exact h.2 e ((hperm.filterMap _).subset hmem)
  have hfront : ∀ e ∈ ([] : List PolicyDecision), op.preference e < op.preference d :=
    fun e he => absurd he List.not_mem_nil
  exact argmax_of_first hfront hback

/-- **Composition by severity.**  The decision is the first, in the order of the rules, of the most
(the least) severe ones of the rules that do not abstain, and there is none exactly when all
abstain.  So the level does not depend on the order of the rules; action and isolation do not depend
on it exactly when all these decisions have the same. -/
theorem composed_by_severity (hop : op = .maxSeverity ∨ op = .minSeverity)
    (rules : List (String × PolicyRule)) (signal : AnomalySignal) (sample : TelemetrySample) :
    let composed := fun rules => (evaluate ⟨rules, op⟩ signal sample).1
    (∀ d, composed rules = some d ↔ FirstPreferred op (decisions rules signal sample) d) ∧
    (composed rules = none ↔ ∀ rule ∈ rules, rule.2 signal sample = none) ∧
    (∀ rules', rules'.Perm rules →
      (composed rules').map PolicyDecision.level = (composed rules).map PolicyDecision.level) ∧
    ((∀ rules', rules'.Perm rules →
        (composed rules').map PolicyDecision.outcome =
          (composed rules).map PolicyDecision.outcome) ↔
      ∀ d e, op.Preferred (decisions rules signal sample) d →
        op.Preferred (decisions rules signal sample) e → d.outcome = e.outcome) := by
  intro composed
  refine ⟨fun d => ?_, ?_, fun rules' h => ?_, fun h d e hd he => ?_, fun h rules' hperm => ?_⟩
  · rw [← argmax_eq_some_iff_first, ← evaluate_eq_argmax hop]
  · change (evaluate ⟨rules, op⟩ signal sample).1 = none ↔ _
    rw [evaluate_eq_argmax hop, List.argmax_eq_none, decisions, List.filterMap_eq_nil_iff]
  · change (evaluate ⟨rules', op⟩ signal sample).1.map _ =
      (evaluate ⟨rules, op⟩ signal sample).1.map _
    obtain ⟨hnone, hnone'⟩ | ⟨d, e, hd, he, hpd, hpe⟩ := evaluate_perm hop h
    · rw [hnone, hnone']
    · rw [hd, he, Option.map_some, Option.map_some]
      have heq : op.preference d = op.preference e := le_antisymm (hpe.2 d hpd.1) (hpd.2 e hpe.1)
      rw [level_eq_of_preference_eq heq]
  · obtain ⟨rules', hperm', hd'⟩ := exists_perm_evaluate hop hd
    obtain ⟨rules'', hperm'', he''⟩ := exists_perm_evaluate hop he
    have hboth := (h rules' hperm').trans (h rules'' hperm'').symm
    change (evaluate ⟨rules', op⟩ signal sample).1.map _ =
      (evaluate ⟨rules'', op⟩ signal sample).1.map _ at hboth
    rwa [hd', he'', Option.map_some, Option.map_some, Option.some.injEq] at hboth
  · change (evaluate ⟨rules', op⟩ signal sample).1.map _ =
      (evaluate ⟨rules, op⟩ signal sample).1.map _
    obtain ⟨hnone, hnone'⟩ | ⟨d, e, hd, he, hpd, hpe⟩ := evaluate_perm hop hperm
    · rw [hnone, hnone']
    · rw [hd, he, Option.map_some, Option.map_some, h d e hpd hpe]

/-- The engine on a device with 14 percent of battery, and a rule that knows no battery. -/
def batteryRules : List (String × PolicyRule) :=
  [("engine", fun signal sample => some (PolicyEngine.evaluate (fun _ _ => "") signal sample)),
    ("quarantine", fun _ _ => some ⟨.severe, .quarantine, 75, "severe"⟩)]

def lowBattery : TelemetrySample := ⟨14, 18 / 100⟩

/-- The level is the same in both orders. -/
theorem battery_rules_level :
    (evaluate ⟨batteryRules.reverse, .maxSeverity⟩ ⟨34 / 10, 1⟩ lowBattery).1.map
        PolicyDecision.level =
      (evaluate ⟨batteryRules, .maxSeverity⟩ ⟨34 / 10, 1⟩ lowBattery).1.map
        PolicyDecision.level :=
  (composed_by_severity (.inl rfl) batteryRules ⟨34 / 10, 1⟩ lowBattery).2.2.1 _
    (List.reverse_perm batteryRules)

/-- Which of the two comes first tells whether the device is limited or quarantined. -/
theorem softened_quarantine_by_order :
    ¬ ∀ op, op = CompositionOp.maxSeverity ∨ op = CompositionOp.minSeverity →
      ∀ (rules rules' : List (String × PolicyRule)) (signal : AnomalySignal)
        (sample : TelemetrySample), rules'.Perm rules →
        (evaluate ⟨rules', op⟩ signal sample).1.map PolicyDecision.outcome =
          (evaluate ⟨rules, op⟩ signal sample).1.map PolicyDecision.outcome := by
  intro h
  have heq := h .maxSeverity (.inl rfl) batteryRules batteryRules.reverse ⟨34 / 10, 1⟩ lowBattery
    (List.reverse_perm batteryRules)
  exact absurd heq (by decide +kernel)

end CompositePolicy

end Wardex.Policy
