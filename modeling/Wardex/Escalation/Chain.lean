import Mathlib.Data.List.Nodup
import Wardex.Escalation.Engine
import Wardex.Lib.Run

/-! An escalation goes through the levels of its policy one after the other, if the numbers of the
levels let it find its place again. -/

namespace Wardex.Escalation

open Wardex.Lib

inductive EscalationCall where
  | checkSla (now : Nat)
  | acknowledge (escalationId acknowledgedBy : String) (now : Nat)
  | resolve (escalationId : String)

/-- The engine, with the times at which one escalation of it has come to levels of its policy, the
index of each, and the time of the last check. -/
structure EscalationWorld where
  engine : EscalationEngine
  entered : List (Nat × Nat)
  clock : Nat

def SlaVerdict.entry (now : Nat) : SlaVerdict → List (Nat × Nat)
  | .waiting => []
  | .escalated idx _ => [(now, idx)]
  | .expired => []

namespace EscalationWorld

/-- The calls, as the escalation at index `i` goes through them. -/
def after (i : Nat) (w : EscalationWorld) : EscalationCall → EscalationWorld
  | .checkSla now => {
      engine := (w.engine.checkSla now).1
      entered := w.entered ++
        (w.engine.active[i]?.elim [] fun esc => (w.engine.verdict esc now).entry now)
      clock := now }
  | .acknowledge escalationId acknowledgedBy now =>
      { w with engine := (w.engine.acknowledge escalationId acknowledgedBy now).1 }
  | .resolve escalationId => { w with engine := (w.engine.resolve escalationId).1 }

theorem after_checkSla {w : EscalationWorld} {i now : Nat} {esc : EscalationState}
    (hget : w.engine.active[i]? = some esc) : w.after i (.checkSla now) =
      ⟨(w.engine.checkSla now).1, w.entered ++ (w.engine.verdict esc now).entry now, now⟩ := by
  rw [after, hget, Option.elim_some]

/-- The clock does not go back. -/
def OnTime (w : EscalationWorld) (call : EscalationCall) : Prop :=
  ∀ now, call = .checkSla now → w.clock ≤ now

end EscalationWorld

def EscalationLevel.deadline (level : EscalationLevel) (enteredAt : Nat) : Nat :=
  enteredAt + 1000 * level.slaSecs

/-- What is sent when the level at an index is entered. -/
def entryNotifications (levels : List EscalationLevel) (alertId : String) (entry : Nat × Nat) :
    List NotificationRecord :=
  levels[entry.2]?.elim [] fun level => level.notifications entry.1
    (if entry.2 = 0 then attentionMessage alertId else escalatedMessage level.level alertId)

/-- No level is left before its time. -/
def Waited (levels : List EscalationLevel) (times : List Nat) : Prop :=
  ∀ k level t t', levels[k]? = some level → times[k]? = some t → times[k + 1]? = some t' →
    level.deadline t ≤ t'

/-- The escalation has come to the first levels in their order, at the given times, and they have
been notified; it has expired only after all of them. -/
structure Progress (levels : List EscalationLevel) (alertId : String) (w : EscalationWorld)
    (esc : EscalationState) (times : List Nat) : Prop where
  order : w.entered = times.zipIdx
  within : times.length ≤ levels.length
  notified : esc.notifications = w.entered.flatMap (entryNotifications levels alertId)
  waited : Waited levels times
  expired : esc.status = .expired → times.length = levels.length ∧
    ∀ level t, levels.getLast? = some level → times.getLast? = some t → level.deadline t ≤ w.clock

/-- If the escalation has been acknowledged or resolved, nobody is notified any more. -/
def Quiet (i : Nat) (w : EscalationWorld) (esc : EscalationState) : Prop :=
  esc.status = .acknowledged ∨ esc.status = .resolved → ∀ calls : List EscalationCall,
    (run (EscalationWorld.after i) w calls).engine.active[i]?.map EscalationState.notifications =
      some esc.notifications

/-- The escalation at the index is in order. -/
def EscalationWorld.InOrderAt (levels : List EscalationLevel) (alertId : String) (i : Nat)
    (w : EscalationWorld) : Prop :=
  ∃ esc times, w.engine.active[i]? = some esc ∧ Progress levels alertId w esc times ∧ Quiet i w esc

/-- The first level has number 1 and no number is given twice, or there is but one level and no time
to wait at it. -/
def Numbered (levels : List EscalationLevel) : Prop :=
  ((levels.head?.map EscalationLevel.level = some 1 ∧ (levels.map EscalationLevel.level).Nodup) ∨
    ∃ level, levels = [level] ∧ level.slaSecs = 0)

/-! ## Where the escalation finds itself -/

/-- The number under which the level at an index is looked up: that of the first is taken to be
1. -/
def lookupNumber (levels : List EscalationLevel) : Nat → UInt32
  | 0 => 1
  | k + 1 => levels[k + 1]?.elim 0 EscalationLevel.level

def lookup (levels : List EscalationLevel) (number : UInt32) : Option Nat :=
  levels.findIdx? fun level => level.level = number

variable {levels : List EscalationLevel} {k : Nat}

theorem lookup_of_nodup (hnodup : (levels.map EscalationLevel.level).Nodup)
    {level : EscalationLevel} (h : levels[k]? = some level) :
    lookup levels level.level = some k := by
  obtain ⟨hk, rfl⟩ := List.getElem?_eq_some_iff.mp h
  refine List.findIdx?_eq_some_iff_getElem.mpr ⟨hk, decide_eq_true rfl, fun j hj => ?_⟩
  intro hsame
  have heq : (levels.map EscalationLevel.level)[j]? =
      (levels.map EscalationLevel.level)[k]? := by
    rw [List.getElem?_map, List.getElem?_map, List.getElem?_eq_getElem hk,
      List.getElem?_eq_getElem (hj.trans hk), Option.map_some, Option.map_some,
      of_decide_eq_true hsame]
  have hlength : j < (levels.map EscalationLevel.level).length := by
    rw [List.length_map]
    exact hj.trans hk
  exact hj.ne ((List.getElem?_inj hlength hnodup).mp heq)

/-- With such numbers an escalation finds the level that it came to, or else it has nothing to wait
for. -/
theorem Numbered.lookup_eq (h : Numbered levels) (hk : k < levels.length) :
    lookup levels (lookupNumber levels k) = some k ∨
      ∃ level, levels = [level] ∧ level.slaSecs = 0 := by
  refine h.imp_left fun ⟨hfirst, hnodup⟩ => ?_
  have hget := List.getElem?_eq_getElem hk
  have hnumber : lookupNumber levels k = levels[k].level := by
    cases k with
    | zero =>
      rw [List.head?_eq_getElem?, hget, Option.map_some] at hfirst
      exact (Option.some.inj hfirst).symm
    | succ k => rw [lookupNumber, hget, Option.elim_some]
  rw [hnumber, lookup_of_nodup hnodup hget]

/-- Whoever finds every level has levels with such numbers. -/
theorem numbered_of_lookup (hne : levels ≠ [])
    (h : ∀ k < levels.length, lookup levels (lookupNumber levels k) = some k) :
    Numbered levels := by
  have hlevel {k : Nat} (hk : k < levels.length) : levels[k].level = lookupNumber levels k := by
    obtain ⟨_, hfound, -⟩ := List.findIdx?_eq_some_iff_getElem.mp (h k hk)
    exact of_decide_eq_true hfound
  have hpos : 0 < levels.length := List.length_pos_of_ne_nil hne
  refine .inl ⟨?_, List.nodup_iff_injective_get.mpr ?_⟩
  · rw [List.head?_eq_getElem?, List.getElem?_eq_getElem hpos, Option.map_some, hlevel hpos]
    rfl
  · rintro ⟨j, hj⟩ ⟨k, hk⟩ heq
    rw [List.length_map] at hj hk
    simp only [List.get_eq_getElem, List.getElem_map] at heq
    rw [hlevel hj, hlevel hk] at heq
    exact Fin.ext (Option.some.inj ((h j hj).symm.trans (heq ▸ h k hk)))

/-! ## One check -/

variable {esc : EscalationState} {level : EscalationLevel} {now t : Nat}

theorem due_iff (h : t ≤ now) : level.slaSecs ≤ (now - t) / 1000 ↔ level.deadline t ≤ now := by
  rw [EscalationLevel.deadline, Nat.le_div_iff_mul_le (by decide)]
  omega

theorem slaVerdict_of_lookup (hfound : lookup levels esc.currentLevel = some k)
    (hlevel : levels[k]? = some level) (hclock : esc.lastEscalatedAt ≤ now) :
    slaVerdict levels esc now =
      if level.deadline esc.lastEscalatedAt ≤ now then
        levels[k + 1]?.elim .expired (SlaVerdict.escalated (k + 1))
      else .waiting := by
  rw [lookup] at hfound
  rw [slaVerdict, hfound]
  simp only [hlevel, due_iff hclock]
  cases levels[k + 1]? <;> rfl

theorem slaVerdict_of_lookup_none (h : lookup levels esc.currentLevel = none) :
    slaVerdict levels esc now = .expired := by
  rw [lookup] at h
  rw [slaVerdict, h]

/-- What a check may find for an escalation that came to the level at `k` at the time `t`: the time
is not over, or the next level comes, or there is none. -/
inductive Lawful (levels : List EscalationLevel) (k t now : Nat) : SlaVerdict → Prop
  | waiting : Lawful levels k t now .waiting
  | escalated {level next : EscalationLevel} (hlevel : levels[k]? = some level)
      (hnext : levels[k + 1]? = some next) (hdue : level.deadline t ≤ now) :
      Lawful levels k t now (.escalated (k + 1) next)
  | expired {level : EscalationLevel} (hlevel : levels[k]? = some level)
      (hlast : k + 1 = levels.length) (hdue : level.deadline t ≤ now) :
      Lawful levels k t now .expired

theorem lawful_of_lookup (hfound : lookup levels esc.currentLevel = some k)
    (hk : k < levels.length) (hclock : esc.lastEscalatedAt ≤ now) :
    Lawful levels k esc.lastEscalatedAt now (slaVerdict levels esc now) := by
  have hget := List.getElem?_eq_getElem hk
  rw [slaVerdict_of_lookup hfound hget hclock]
  split_ifs with hdue
  · cases hnext : levels[k + 1]? with
    | some next => exact .escalated hget hnext hdue
    | none => exact .expired hget (Nat.le_antisymm hk (List.getElem?_eq_none_iff.mp hnext)) hdue
  · exact .waiting

theorem Numbered.lawful (h : Numbered levels) (hk : k < levels.length)
    (hplace : esc.currentLevel = lookupNumber levels k) (hclock : esc.lastEscalatedAt ≤ now) :
    Lawful levels k esc.lastEscalatedAt now (slaVerdict levels esc now) := by
  rcases h.lookup_eq hk with hlookup | ⟨level, rfl, hsla⟩
  · exact lawful_of_lookup (hplace ▸ hlookup) hk hclock
  · -- the only level is found, or the escalation expires at once
    obtain rfl : k = 0 := Nat.lt_one_iff.mp hk
    cases hlookup : lookup [level] esc.currentLevel with
    | none =>
      rw [slaVerdict_of_lookup_none hlookup]
      have hdue : level.deadline esc.lastEscalatedAt ≤ now := by
        rwa [EscalationLevel.deadline, hsla]
      exact .expired rfl rfl hdue
    | some j =>
      obtain ⟨hj, -, -⟩ := List.findIdx?_eq_some_iff_getElem.mp hlookup
      obtain rfl : j = 0 := Nat.lt_one_iff.mp hj
      exact lawful_of_lookup hlookup hk hclock

/-! ## A run -/

variable {policyId alertId : String} {i : Nat} {w : EscalationWorld} {esc' : EscalationState}
  {times : List Nat} {call : EscalationCall}

theorem Waited.concat (h : Waited levels times) (hlevel : levels[times.length - 1]? = some level)
    (hlast : times.getLast? = some t) (hdue : level.deadline t ≤ now) :
    Waited levels (times ++ [now]) := by
  intro k level' s s' hlevel' hs hs'
  have hk := (List.getElem?_eq_some_iff.mp hs').1
  rw [List.length_append, List.length_singleton] at hk
  rw [List.getElem?_append_left (Nat.lt_of_succ_lt_succ hk)] at hs
  by_cases hbefore : k + 1 < times.length
  · rw [List.getElem?_append_left hbefore] at hs'
    exact h k level' s s' hlevel' hs hs'
  · have hend : k + 1 = times.length := by omega
    have hpred : times.length - 1 = k := by omega
    rw [hend, List.getElem?_concat_length] at hs'
    rw [List.getLast?_eq_getElem?, hpred, hs] at hlast
    rw [hpred, hlevel'] at hlevel
    obtain rfl := Option.some.inj hlevel
    obtain rfl := Option.some.inj hlast
    exact Option.some.inj hs' ▸ hdue

/-- The progress of an escalation under a policy, and the place where it is. -/
structure OnTrack (policy : EscalationPolicy) (policyId alertId : String) (w : EscalationWorld)
    (esc : EscalationState) (times : List Nat) : Prop extends
    Progress policy.levels alertId w esc times where
  found : w.engine.findPolicy policyId = some policy
  ofPolicy : esc.policyId = policyId
  ofAlert : esc.alertId = alertId
  place : esc.status = .active → esc.currentLevel = lookupNumber policy.levels (times.length - 1)
  last : times.getLast? = some esc.lastEscalatedAt
  clock : esc.lastEscalatedAt ≤ w.clock

namespace OnTrack

variable {policy : EscalationPolicy}

theorem length_pos (h : OnTrack policy policyId alertId w esc times) : 0 < times.length := by
  refine List.length_pos_of_ne_nil fun hnil => ?_
  have hlast := h.last
  rw [hnil] at hlast
  exact absurd hlast.symm (Option.some_ne_none _)

theorem lt_length (h : OnTrack policy policyId alertId w esc times) :
    times.length - 1 < policy.levels.length :=
  Nat.lt_of_lt_of_le (Nat.sub_lt h.length_pos Nat.one_pos) h.within

theorem verdict_eq (h : OnTrack policy policyId alertId w esc times)
    (hactive : esc.status = .active) :
    w.engine.verdict esc now = slaVerdict policy.levels esc now := by
  have hne : policy.levels.isEmpty = false :=
    List.isEmpty_eq_false_iff.mpr (List.ne_nil_of_length_pos (h.length_pos.trans_le h.within))
  rw [EscalationEngine.verdict, if_pos hactive, h.ofPolicy, h.found]
  simp only [hne, Bool.false_eq_true, if_false]

/-- The escalation stays on track if it is settled, and if the clock goes on. -/
theorem settles (h : OnTrack policy policyId alertId w esc times) (hsettles : Settles esc esc')
    {engine : EscalationEngine} (hengine : engine.policies = w.engine.policies)
    (hclock : w.clock ≤ now) :
    OnTrack policy policyId alertId ⟨engine, w.entered, now⟩ esc' times where
  order := h.order
  within := h.within
  notified := hsettles.notifications.trans h.notified
  waited := h.waited
  expired hexpired := by
    rcases hsettles.status with rfl | hsettled | hsettled
    · refine (h.expired hexpired).imp_right fun hdue level t hlevel ht => ?_
      exact (hdue level t hlevel ht).trans hclock
    · exact absurd (hsettled.symm.trans hexpired) (by decide)
    · exact absurd (hsettled.symm.trans hexpired) (by decide)
  found := by
    rw [EscalationEngine.findPolicy, hengine]
    exact h.found
  ofPolicy := hsettles.policyId.trans h.ofPolicy
  ofAlert := hsettles.alertId.trans h.ofAlert
  place hactive := by
    rcases hsettles.status with rfl | hsettled | hsettled
    · exact h.place hactive
    · exact absurd (hsettled.symm.trans hactive) (by decide)
    · exact absurd (hsettled.symm.trans hactive) (by decide)
  last := h.last.trans (congrArg some hsettles.lastEscalatedAt.symm)
  clock := hsettles.lastEscalatedAt.le.trans (h.clock.trans hclock)

theorem escalated (h : OnTrack policy policyId alertId w esc times)
    (hactive : esc.status = .active) {next : EscalationLevel} {engine : EscalationEngine}
    (hengine : engine.policies = w.engine.policies)
    (hlevel : policy.levels[times.length - 1]? = some level)
    (hnext : policy.levels[times.length]? = some next)
    (hdue : level.deadline esc.lastEscalatedAt ≤ now) :
    OnTrack policy policyId alertId ⟨engine, w.entered ++ [(now, times.length)], now⟩
      (esc.apply now (.escalated times.length next)) (times ++ [now]) where
  order := by
    rw [List.zipIdx_append, h.order, Nat.zero_add]
    rfl
  within := by
    rw [List.length_append]
    exact (List.getElem?_eq_some_iff.mp hnext).1
  notified := by
    have hentry : entryNotifications policy.levels alertId (now, times.length) =
        next.notifications now (escalatedMessage next.level esc.alertId) := by
      rw [entryNotifications, hnext, Option.elim_some, if_neg h.length_pos.ne', h.ofAlert]
    rw [List.flatMap_append, List.flatMap_singleton, hentry, ← h.notified]
    rfl
  waited := h.waited.concat hlevel h.last hdue
  expired hexpired := absurd (hactive.symm.trans hexpired) (by decide)
  found := by
    rw [EscalationEngine.findPolicy, hengine]
    exact h.found
  ofPolicy := h.ofPolicy
  ofAlert := h.ofAlert
  place _ := by
    rw [List.length_append, List.length_singleton, Nat.add_sub_cancel]
    obtain ⟨k, hk⟩ := Nat.exists_eq_succ_of_ne_zero h.length_pos.ne'
    rw [hk] at hnext ⊢
    rw [lookupNumber, hnext]
    rfl
  last := List.getLast?_concat
  clock := le_rfl

theorem expires (h : OnTrack policy policyId alertId w esc times) (hclock : w.clock ≤ now)
    {engine : EscalationEngine} (hengine : engine.policies = w.engine.policies)
    (hlevel : policy.levels[times.length - 1]? = some level)
    (hlast : times.length = policy.levels.length)
    (hdue : level.deadline esc.lastEscalatedAt ≤ now) :
    OnTrack policy policyId alertId ⟨engine, w.entered, now⟩ (esc.apply now .expired) times where
  order := h.order
  within := h.within
  notified := h.notified
  waited := h.waited
  expired _ := by
    refine ⟨hlast, fun level' t hlevel' ht => ?_⟩
    rw [List.getLast?_eq_getElem?, ← hlast, hlevel] at hlevel'
    obtain rfl := Option.some.inj hlevel'
    obtain rfl := Option.some.inj (h.last.symm.trans ht)
    exact hdue
  found := by
    rw [EscalationEngine.findPolicy, hengine]
    exact h.found
  ofPolicy := h.ofPolicy
  ofAlert := h.ofAlert
  place hactive := absurd hactive (show EscalationStatus.expired ≠ .active by decide)
  last := h.last
  clock := h.clock.trans hclock

/-- Each call keeps the escalation on track, if a check finds what it may find. -/
theorem after (h : OnTrack policy policyId alertId w esc times)
    (hget : w.engine.active[i]? = some esc) (hcall : w.OnTime call)
    (hlawful : ∀ now, w.clock ≤ now → esc.status = .active →
      Lawful policy.levels (times.length - 1) esc.lastEscalatedAt now
        (slaVerdict policy.levels esc now)) :
    ∃ esc' times', (w.after i call).engine.active[i]? = some esc' ∧
      OnTrack policy policyId alertId (w.after i call) esc' times' := by
  have hback : times.length - 1 + 1 = times.length := Nat.sub_add_cancel h.length_pos
  cases call with
  | checkSla now =>
    have hclock : w.clock ≤ now := hcall now rfl
    have hget' := EscalationEngine.getElem?_checkSla hget now
    rw [EscalationWorld.after_checkSla hget]
    by_cases hactive : esc.status = .active
    · have hverdict := hlawful now hclock hactive
      rw [← h.verdict_eq hactive] at hverdict
      generalize w.engine.verdict esc now = verdict at hget' hverdict ⊢
      cases hverdict with
      | waiting =>
        rw [SlaVerdict.entry, List.append_nil]
        exact ⟨esc, times, hget', h.settles (Settles.refl esc) rfl hclock⟩
      | escalated hlevel hnext hdue =>
        rw [hback] at hnext hget' ⊢
        exact ⟨_, _, hget', h.escalated hactive rfl hlevel hnext hdue⟩
      | expired hlevel hlast hdue =>
        rw [SlaVerdict.entry, List.append_nil]
        exact ⟨_, times, hget', h.expires hclock rfl hlevel (hback.symm.trans hlast) hdue⟩
    · have hverdict : w.engine.verdict esc now = .waiting := by
        rw [EscalationEngine.verdict, if_neg hactive]
      rw [hverdict] at hget' ⊢
      rw [SlaVerdict.entry, List.append_nil]
      exact ⟨esc, times, hget', h.settles (Settles.refl esc) rfl hclock⟩
  | acknowledge escalationId acknowledgedBy now =>
    obtain ⟨esc', hget', hsettles, -⟩ :=
      EscalationEngine.settles_acknowledge hget escalationId acknowledgedBy now
    have hengine := w.engine.policies_acknowledge escalationId acknowledgedBy now
    exact ⟨esc', times, hget', h.settles hsettles hengine le_rfl⟩
  | resolve escalationId =>
    obtain ⟨esc', hget', hsettles⟩ := EscalationEngine.settles_resolve hget escalationId
    exact ⟨esc', times, hget', h.settles hsettles rfl le_rfl⟩

end OnTrack

/-- Nobody is notified of an escalation that is not active. -/
theorem quiet_after {notifications : List NotificationRecord}
    (h : ∃ esc, w.engine.active[i]? = some esc ∧ esc.status ≠ .active ∧
      esc.notifications = notifications) (call : EscalationCall) :
    ∃ esc, (w.after i call).engine.active[i]? = some esc ∧ esc.status ≠ .active ∧
      esc.notifications = notifications := by
  obtain ⟨esc, hget, hstatus, rfl⟩ := h
  cases call with
  | checkSla now =>
    have hget' := EscalationEngine.getElem?_checkSla hget now
    rw [EscalationEngine.verdict, if_neg hstatus] at hget'
    exact ⟨esc, hget', hstatus, rfl⟩
  | acknowledge escalationId acknowledgedBy now =>
    obtain ⟨esc', hget', -, hsame⟩ :=
      EscalationEngine.settles_acknowledge hget escalationId acknowledgedBy now
    obtain rfl := hsame hstatus
    exact ⟨esc', hget', hstatus, rfl⟩
  | resolve escalationId =>
    obtain ⟨esc', hget', hsettles⟩ := EscalationEngine.settles_resolve hget escalationId
    refine ⟨esc', hget', ?_, hsettles.notifications⟩
    rcases hsettles.status with rfl | hsettled | hsettled
    · exact hstatus
    · exact fun hactive => absurd (hsettled.symm.trans hactive) (by decide)
    · exact fun hactive => absurd (hsettled.symm.trans hactive) (by decide)

theorem quiet_of_getElem? (hget : w.engine.active[i]? = some esc) : Quiet i w esc := by
  intro hstatus calls
  have hnot : esc.status ≠ .active := by
    rcases hstatus with hstatus | hstatus <;>
      exact fun hactive => absurd (hstatus.symm.trans hactive) (by decide)
  have hkept : ∃ esc', (run (EscalationWorld.after i) w calls).engine.active[i]? = some esc' ∧
      esc'.status ≠ .active ∧ esc'.notifications = esc.notifications :=
    run_invariant (I := fun w : EscalationWorld => ∃ esc', w.engine.active[i]? = some esc' ∧
      esc'.status ≠ .active ∧ esc'.notifications = esc.notifications) (P := fun _ _ => True)
      (fun _ call h _ => quiet_after h call) ⟨esc, hget, hnot, rfl⟩
      (along_iff.mpr fun _ _ _ _ => trivial)
  obtain ⟨esc', hget', -, hsame⟩ := hkept
  rw [hget', Option.map_some, hsame]

/-! ## All runs -/

variable {policy : EscalationPolicy} {engine : EscalationEngine}

theorem OnTrack.inOrderAt (h : OnTrack policy policyId alertId w esc times)
    (hget : w.engine.active[i]? = some esc) : w.InOrderAt policy.levels alertId i :=
  ⟨esc, times, hget, h.toProgress, quiet_of_getElem? hget⟩

/-- An escalation that has just been started. -/
def EscalationWorld.start (engine : EscalationEngine) (policyId alertId : String) (now : Nat) :
    Option EscalationWorld :=
  (engine.startEscalation policyId alertId now).map fun started => ⟨started.1, [(now, 0)], now⟩

theorem onTrack_start (hpolicy : engine.findPolicy policyId = some policy)
    (hstart : EscalationWorld.start engine policyId alertId now = some w) :
    ∃ esc, w.engine.active[engine.active.length]? = some esc ∧ esc.status = .active ∧
      OnTrack policy policyId alertId w esc [now] := by
  rw [EscalationWorld.start, EscalationEngine.startEscalation, hpolicy] at hstart
  cases hlevels : policy.levels with
  | nil =>
    simp only [hlevels] at hstart
    exact absurd hstart.symm (Option.some_ne_none w)
  | cons level levels =>
    simp only [hlevels] at hstart
    split_ifs at hstart with henabled
    · obtain rfl := Option.some.inj hstart
      refine ⟨_, List.getElem?_concat_length, rfl,
        ⟨⟨rfl, ?_, ?_, ?_, ?_⟩, hpolicy, rfl, rfl, ?_, rfl, le_rfl⟩⟩
      · rw [hlevels]
        exact Nat.succ_le_succ (Nat.zero_le _)
      · rw [hlevels]
        exact (List.append_nil _).symm
      · intro k level t t' _ _ ht'
        exact absurd (List.getElem?_eq_some_iff.mp ht').1 (Nat.not_lt_of_le (Nat.le_add_left 1 k))
      · exact fun hexpired => absurd hexpired (show EscalationStatus.active ≠ .expired by decide)
      · exact fun _ => rfl
    · exact absurd hstart.symm (Option.some_ne_none w)

/-- With numbered levels every run is in order. -/
theorem Numbered.inOrder (h : Numbered policy.levels)
    (hget : ∃ esc times, w.engine.active[i]? = some esc ∧
      OnTrack policy policyId alertId w esc times) {calls : List EscalationCall}
    (htime : Along (EscalationWorld.after i) EscalationWorld.OnTime w calls) :
    Throughout (EscalationWorld.after i) (EscalationWorld.InOrderAt policy.levels alertId i) w
      calls := by
  refine throughout_of_invariant (I := fun w => ∃ esc times, w.engine.active[i]? = some esc ∧
    OnTrack policy policyId alertId w esc times) ?_ ?_ hget htime
  · rintro w call ⟨esc, times, hget, htrack⟩ hcall
    refine htrack.after hget hcall fun now hclock hactive => ?_
    exact h.lawful htrack.lt_length (htrack.place hactive) (htrack.clock.trans hclock)
  · rintro w ⟨esc, times, hget, htrack⟩
    exact htrack.inOrderAt hget

theorem eq_of_zipIdx_eq {times' : List Nat} (h : times.zipIdx = times'.zipIdx) :
    times = times' := by
  rw [← List.zipIdx_map_fst 0 times, h, List.zipIdx_map_fst]

theorem eq_length_of_concat_eq_zipIdx {times' : List Nat} {idx : Nat}
    (h : times.zipIdx ++ [(now, idx)] = times'.zipIdx) : idx = times.length := by
  have hlength := congrArg List.length h
  have hindices := congrArg (List.map Prod.snd) h
  rw [List.length_append, List.length_zipIdx, List.length_zipIdx] at hlength
  rw [List.map_append, List.zipIdx_map_snd, List.zipIdx_map_snd, ← hlength, List.length_singleton,
    List.range'_1_concat, List.append_cancel_left_eq, Nat.zero_add] at hindices
  exact (List.cons.inj hindices).1

/-- In a state after which a check is in order, the level that is looked up is the one that was
entered last, or no level is found and nothing was left to wait for. -/
theorem lookup_of_inOrder (htrack : OnTrack policy policyId alertId w esc times)
    (hget : w.engine.active[i]? = some esc) (hactive : esc.status = .active)
    (h : ∀ now, w.clock ≤ now → (w.after i (.checkSla now)).InOrderAt policy.levels alertId i) :
    lookup policy.levels esc.currentLevel = some (times.length - 1) ∨
      lookup policy.levels esc.currentLevel = none ∧ times.length = policy.levels.length ∧
        ∀ level t, policy.levels.getLast? = some level → times.getLast? = some t →
          level.deadline t ≤ w.clock := by
  have hafter (now : Nat) (hclock : w.clock ≤ now) : ∃ times',
      Progress policy.levels alertId ⟨(w.engine.checkSla now).1,
        w.entered ++ (slaVerdict policy.levels esc now).entry now, now⟩
        (esc.apply now (slaVerdict policy.levels esc now)) times' := by
    obtain ⟨esc', times', hget', hprogress, -⟩ := h now hclock
    have hesc := EscalationEngine.getElem?_checkSla hget now
    rw [htrack.verdict_eq hactive] at hesc
    obtain rfl := Option.some.inj (hesc.symm.trans hget')
    rw [EscalationWorld.after_checkSla hget, htrack.verdict_eq hactive] at hprogress
    exact ⟨times', hprogress⟩
  have hexpires {now : Nat} {times' : List Nat} {esc' : EscalationState}
      (hprogress : Progress policy.levels alertId ⟨(w.engine.checkSla now).1, w.entered ++ [], now⟩
        esc' times') (hexpired : esc'.status = .expired) :
      times.length = policy.levels.length ∧ ∀ level t, policy.levels.getLast? = some level →
        times.getLast? = some t → level.deadline t ≤ now := by
    have horder := hprogress.order
    rw [List.append_nil, htrack.order] at horder
    obtain rfl := eq_of_zipIdx_eq horder
    exact hprogress.expired hexpired
  cases hlookup : lookup policy.levels esc.currentLevel with
  | none =>
    -- a check at once makes the escalation expire
    obtain ⟨times', hprogress⟩ := hafter w.clock le_rfl
    rw [slaVerdict_of_lookup_none hlookup] at hprogress
    exact .inr ⟨rfl, hexpires hprogress rfl⟩
  | some p =>
    -- a check when the time of the level is over makes the escalation go to the one after it
    obtain ⟨hp, -, -⟩ := List.findIdx?_eq_some_iff_getElem.mp hlookup
    have hlevel := List.getElem?_eq_getElem hp
    have hclock := le_max_left w.clock (policy.levels[p].deadline esc.lastEscalatedAt)
    have hdue := le_max_right w.clock (policy.levels[p].deadline esc.lastEscalatedAt)
    obtain ⟨times', hprogress⟩ := hafter _ hclock
    rw [slaVerdict_of_lookup hlookup hlevel (htrack.clock.trans hclock), if_pos hdue] at hprogress
    refine .inl (congrArg some ?_)
    cases hnext : policy.levels[p + 1]? with
    | some next =>
      have horder := hprogress.order
      rw [hnext, Option.elim_some, SlaVerdict.entry, htrack.order] at horder
      exact Nat.eq_sub_of_add_eq (eq_length_of_concat_eq_zipIdx horder)
    | none =>
      rw [hnext, Option.elim_none] at hprogress
      have hlength := (hexpires hprogress rfl).1
      have hend := List.getElem?_eq_none_iff.mp hnext
      omega

/-- Some run comes to the level at `k` and is still waiting there. -/
def Reaches (policy : EscalationPolicy) (policyId alertId : String) (i : Nat) (w : EscalationWorld)
    (k : Nat) : Prop :=
  ∃ (calls : List EscalationCall) (esc : EscalationState) (times : List Nat),
    Along (EscalationWorld.after i) EscalationWorld.OnTime w calls ∧
      (run (EscalationWorld.after i) w calls).engine.active[i]? = some esc ∧
        esc.status = .active ∧ times.length = k + 1 ∧
          OnTrack policy policyId alertId (run (EscalationWorld.after i) w calls) esc times

theorem Reaches.next (h : Reaches policy policyId alertId i w k)
    (hlookup : lookup policy.levels (lookupNumber policy.levels k) = some k)
    (hk : k + 1 < policy.levels.length) : Reaches policy policyId alertId i w (k + 1) := by
  obtain ⟨calls, esc, times, htime, hget, hactive, hlength, htrack⟩ := h
  generalize hw : run (EscalationWorld.after i) w calls = w' at hget htrack
  obtain ⟨level, hlevel⟩ : ∃ level, policy.levels[k]? = some level :=
    ⟨_, List.getElem?_eq_getElem (Nat.lt_of_succ_lt hk)⟩
  obtain ⟨next, hnext⟩ : ∃ next, policy.levels[k + 1]? = some next :=
    ⟨_, List.getElem?_eq_getElem hk⟩
  have hback : times.length - 1 = k := by omega
  have hclock := le_max_left w'.clock (level.deadline esc.lastEscalatedAt)
  have hdue := le_max_right w'.clock (level.deadline esc.lastEscalatedAt)
  generalize max w'.clock (level.deadline esc.lastEscalatedAt) = now at hclock hdue
  have hplace := htrack.place hactive
  rw [hback] at hplace
  have hverdict : w'.engine.verdict esc now = .escalated (k + 1) next := by
    rw [htrack.verdict_eq hactive, slaVerdict_of_lookup (hplace ▸ hlookup) hlevel
      (htrack.clock.trans hclock), if_pos hdue, hnext, Option.elim_some]
  have hworld : run (EscalationWorld.after i) w (calls ++ [.checkSla now]) =
      ⟨(w'.engine.checkSla now).1, w'.entered ++ [(now, k + 1)], now⟩ := by
    rw [run_append, hw, run_cons, run_nil, EscalationWorld.after_checkSla hget, hverdict]
    rfl
  rw [← hback] at hlevel
  rw [← hlength] at hnext hverdict hworld
  have hget' := EscalationEngine.getElem?_checkSla hget now
  rw [hverdict] at hget'
  refine ⟨calls ++ [.checkSla now], esc.apply now (.escalated times.length next),
    times ++ [now], ?_,
    ?_, ?_, ?_, ?_⟩
  · refine Along.append.mpr ⟨htime, ?_, trivial⟩
    rintro _ ⟨⟩
    rw [hw]
    exact hclock
  · rw [hworld]
    exact hget'
  · exact hactive
  · rw [List.length_append, hlength, List.length_singleton]
  · rw [hworld]
    exact htrack.escalated hactive rfl hlevel hnext hdue

/-- If every run is in order then the levels are numbered. -/
theorem numbered_of_inOrder (htrack : OnTrack policy policyId alertId w esc [now])
    (hget : w.engine.active[i]? = some esc) (hactive : esc.status = .active)
    (hclock : w.clock = now)
    (h : ∀ calls, Along (EscalationWorld.after i) EscalationWorld.OnTime w calls →
      Throughout (EscalationWorld.after i) (EscalationWorld.InOrderAt policy.levels alertId i) w
        calls) : Numbered policy.levels := by
  have hcheck (calls : List EscalationCall)
      (htime : Along (EscalationWorld.after i) EscalationWorld.OnTime w calls) (now : Nat)
      (hclock : (run (EscalationWorld.after i) w calls).clock ≤ now) :
      ((run (EscalationWorld.after i) w calls).after i (.checkSla now)).InOrderAt policy.levels
        alertId i := by
    have hlast := Throughout.last (h (calls ++ [.checkSla now])
      (Along.append.mpr ⟨htime, fun _ hnow => by cases hnow; exact hclock, trivial⟩))
    rwa [run_append] at hlast
  rcases lookup_of_inOrder htrack hget hactive (hcheck [] trivial) with
    hfirst | ⟨-, hlength, hdue⟩
  · have hlookup (k : Nat) (hk : k < policy.levels.length) :
        Reaches policy policyId alertId i w k ∧
          lookup policy.levels (lookupNumber policy.levels k) = some k := by
      induction k with
      | zero =>
        refine ⟨⟨[], esc, [now], trivial, hget, hactive, rfl, htrack⟩, ?_⟩
        rwa [htrack.place hactive] at hfirst
      | succ k ih =>
        obtain ⟨hreaches, hfound⟩ := ih (Nat.lt_of_succ_lt hk)
        have hreaches' := hreaches.next hfound hk
        refine ⟨hreaches', ?_⟩
        obtain ⟨calls, esc', times, htime, hget', hactive', hlength, htrack'⟩ := hreaches'
        have hplace := htrack'.place hactive'
        rw [hlength, Nat.add_sub_cancel] at hplace
        rcases lookup_of_inOrder htrack' hget' hactive' (hcheck calls htime) with hsome | ⟨hnone, -⟩
        · rwa [hplace, hlength] at hsome
        · rw [hplace, lookupNumber, List.getElem?_eq_getElem hk, Option.elim_some, lookup,
            List.findIdx?_eq_none_iff] at hnone
          exact absurd (hnone _ (List.getElem_mem hk)) (by simp)
    refine numbered_of_lookup ?_ fun k hk => (hlookup k hk).2
    exact List.ne_nil_of_length_pos (Nat.zero_lt_one.trans_le htrack.within)
  · obtain ⟨level, hlevels⟩ := List.length_eq_one_iff.mp hlength.symm
    have hsla := hdue level now (by rw [hlevels]; rfl) rfl
    rw [hclock, EscalationLevel.deadline] at hsla
    exact .inr ⟨level, hlevels, by omega⟩

def levelOf (number : UInt32) (name : String) : EscalationLevel :=
  ⟨number, [⟨name⟩], 300, [.slack]⟩

/-- An engine with one policy of two levels. -/
def engineOf (first second : UInt32) : EscalationEngine :=
  ⟨[⟨"pol-1", true, [levelOf first "Analyst Alice", levelOf second "Manager Bob"]⟩], [], 1⟩

def startedOf (first second : UInt32) : EscalationWorld :=
  (EscalationWorld.start (engineOf first second) "pol-1" "alert-1" 0).getD
    ⟨engineOf first second, [], 0⟩

end Wardex.Escalation
