import Wardex.Lib.Records

/-! Escalation of alerts: a policy is a chain of levels, and an alert that nobody acknowledges in
the time of one level goes to the next. -/

namespace Wardex.Escalation

open Wardex.Lib

inductive EscalationChannel where
  | email
  | slack
  | pagerDuty
  | msTeams
  | webhook (url : String)
  | sms
  | syslog
deriving DecidableEq

structure Contact where
  name : String
deriving DecidableEq

structure EscalationLevel where
  level : UInt32
  contacts : List Contact
  slaSecs : Nat
  channels : List EscalationChannel
deriving DecidableEq

structure EscalationPolicy where
  id : String
  enabled : Bool
  levels : List EscalationLevel
deriving DecidableEq

inductive EscalationStatus where
  | active
  | acknowledged
  | resolved
  | expired
deriving DecidableEq

structure NotificationRecord where
  channel : EscalationChannel
  recipient : String
  level : UInt32
  sentAt : Nat
  delivered : Bool
  messageSummary : String
deriving DecidableEq

structure EscalationState where
  escalationId : String
  policyId : String
  alertId : String
  currentLevel : UInt32
  status : EscalationStatus
  startedAt : Nat
  lastEscalatedAt : Nat
  acknowledgedBy : Option String
  acknowledgedAt : Option Nat
  notifications : List NotificationRecord
deriving DecidableEq

structure EscalationEngine where
  policies : List EscalationPolicy
  active : List EscalationState
  nextEscId : UInt64

/-- Every contact of a level, on every channel of it. -/
def EscalationLevel.notifications (level : EscalationLevel) (now : Nat) (message : String) :
    List NotificationRecord :=
  level.contacts.flatMap fun contact => level.channels.map fun channel =>
    { channel := channel
      recipient := contact.name
      level := level.level
      sentAt := now
      delivered := true
      messageSummary := message }

def attentionMessage (alertId : String) : String := "Alert " ++ alertId ++ " requires attention"

def escalatedMessage (level : UInt32) (alertId : String) : String :=
  "ESCALATED (L" ++ toString level ++ "): Alert " ++ alertId ++ " unacknowledged"

/-- What a check of the deadlines finds for one escalation. -/
inductive SlaVerdict where
  | waiting
  | escalated (idx : Nat) (next : EscalationLevel)
  | expired

/-- The current level is the first one of its number. -/
def slaVerdict (levels : List EscalationLevel) (esc : EscalationState) (now : Nat) : SlaVerdict :=
  match levels.findIdx? fun level => level.level = esc.currentLevel with
  | none => .expired
  | some currentIdx =>
    match levels[currentIdx]? with
    | none => .waiting
    | some current =>
      if current.slaSecs ≤ (now - esc.lastEscalatedAt) / 1000 then
        match levels[currentIdx + 1]? with
        | some next => .escalated (currentIdx + 1) next
        | none => .expired
      else .waiting

/-- The verdict carried out. -/
def EscalationState.apply (esc : EscalationState) (now : Nat) : SlaVerdict → EscalationState
  | .waiting => esc
  | .escalated _ next =>
    { esc with
      currentLevel := next.level
      lastEscalatedAt := now
      notifications := esc.notifications ++
        next.notifications now (escalatedMessage next.level esc.alertId) }
  | .expired => { esc with status := .expired }

namespace EscalationEngine

def findPolicy (engine : EscalationEngine) (policyId : String) : Option EscalationPolicy :=
  engine.policies.find? fun policy => policy.id = policyId

def startEscalation (engine : EscalationEngine) (policyId alertId : String) (now : Nat) :
    Option (EscalationEngine × String) :=
  match engine.findPolicy policyId with
  | none => none
  | some policy =>
    match policy.levels with
    | [] => none
    | level :: _ =>
      if policy.enabled then
        let escId := "esc-" ++ toString engine.nextEscId
        some ({ engine with
          active := engine.active ++ [{
            escalationId := escId
            policyId := policyId
            alertId := alertId
            currentLevel := 1
            status := .active
            startedAt := now
            lastEscalatedAt := now
            acknowledgedBy := none
            acknowledgedAt := none
            notifications := level.notifications now (attentionMessage alertId) }]
          nextEscId := engine.nextEscId + 1 }, escId)
      else none

def acknowledge (engine : EscalationEngine) (escalationId acknowledgedBy : String) (now : Nat) :
    EscalationEngine × Bool :=
  match engine.active.find? fun esc => esc.escalationId = escalationId with
  | none => (engine, false)
  | some esc =>
    if esc.status = .active then
      ({ engine with
        active := updateFirst (fun esc => esc.escalationId = escalationId)
          (fun esc => { esc with
            status := .acknowledged
            acknowledgedBy := some acknowledgedBy
            acknowledgedAt := some now })
          engine.active }, true)
    else (engine, false)

def resolve (engine : EscalationEngine) (escalationId : String) : EscalationEngine × Bool :=
  ({ engine with
    active := updateFirst (fun esc => esc.escalationId = escalationId)
      (fun esc => { esc with status := .resolved }) engine.active },
    engine.active.any fun esc => esc.escalationId = escalationId)

def verdict (engine : EscalationEngine) (esc : EscalationState) (now : Nat) : SlaVerdict :=
  if esc.status = .active then
    match engine.findPolicy esc.policyId with
    | none => .waiting
    | some policy => if policy.levels.isEmpty then .waiting else slaVerdict policy.levels esc now
  else .waiting

def checkSla (engine : EscalationEngine) (now : Nat) : EscalationEngine × List String :=
  ({ engine with active := engine.active.map fun esc => esc.apply now (engine.verdict esc now) },
    engine.active.filterMap fun esc =>
      match engine.verdict esc now with
      | .escalated _ _ => some esc.escalationId
      | _ => none)

end EscalationEngine

/-! ## One escalation -/

variable {engine : EscalationEngine} {esc : EscalationState} {i : Nat}

theorem EscalationEngine.getElem?_checkSla (h : engine.active[i]? = some esc) (now : Nat) :
    (engine.checkSla now).1.active[i]? = some (esc.apply now (engine.verdict esc now)) := by
  rw [checkSla, List.getElem?_map, h, Option.map_some]

/-- The escalation has been acknowledged or resolved, or it is as before. -/
structure Settles (esc esc' : EscalationState) : Prop where
  policyId : esc'.policyId = esc.policyId
  alertId : esc'.alertId = esc.alertId
  notifications : esc'.notifications = esc.notifications
  lastEscalatedAt : esc'.lastEscalatedAt = esc.lastEscalatedAt
  status : esc' = esc ∨ esc'.status = .acknowledged ∨ esc'.status = .resolved

theorem Settles.refl (esc : EscalationState) : Settles esc esc := ⟨rfl, rfl, rfl, rfl, .inl rfl⟩

theorem settles_updateFirst {active : List EscalationState} {p : EscalationState → Bool}
    {f : EscalationState → EscalationState} (h : active[i]? = some esc)
    (hf : ∀ esc, Settles esc (f esc)) :
    ∃ esc', (updateFirst p f active)[i]? = some esc' ∧ Settles esc esc' := by
  have hi : i < (updateFirst p f active).length := by
    rw [length_updateFirst]
    exact (List.getElem?_eq_some_iff.mp h).1
  have hget := List.getElem?_eq_getElem hi
  refine ⟨_, hget, ?_⟩
  rcases getElem?_updateFirst hget with hsame | ⟨esc', hesc', -, heq⟩
  · exact Option.some.inj (h.symm.trans hsame) ▸ Settles.refl esc
  · obtain rfl := Option.some.inj (h.symm.trans hesc')
    exact heq ▸ hf esc

theorem EscalationEngine.settles_acknowledge (h : engine.active[i]? = some esc)
    (escalationId acknowledgedBy : String) (now : Nat) :
    ∃ esc', (engine.acknowledge escalationId acknowledgedBy now).1.active[i]? = some esc' ∧
      Settles esc esc' ∧ (esc.status ≠ .active → esc' = esc) := by
  rw [acknowledge]
  split
  · exact ⟨esc, h, Settles.refl esc, fun _ => rfl⟩
  · next found hfound =>
    split_ifs with hactive
    · have hi := (List.getElem?_eq_some_iff.mp h).1
      rw [← length_updateFirst] at hi
      have hget := List.getElem?_eq_getElem hi
      refine ⟨_, hget, ?_⟩
      rcases getElem?_updateFirst hget with hsame | ⟨esc', hesc', hfirst, heq⟩
      · obtain heq := Option.some.inj (h.symm.trans hsame)
        exact heq ▸ ⟨Settles.refl esc, fun _ => rfl⟩
      · obtain rfl := Option.some.inj (h.symm.trans hesc')
        obtain rfl := Option.some.inj (hfound.symm.trans hfirst)
        exact heq ▸ ⟨⟨rfl, rfl, rfl, rfl, .inr (.inl rfl)⟩, fun hnot => absurd hactive hnot⟩
    · exact ⟨esc, h, Settles.refl esc, fun _ => rfl⟩

theorem EscalationEngine.settles_resolve (h : engine.active[i]? = some esc)
    (escalationId : String) :
    ∃ esc', (engine.resolve escalationId).1.active[i]? = some esc' ∧ Settles esc esc' :=
  settles_updateFirst h fun _ => ⟨rfl, rfl, rfl, rfl, .inr (.inr rfl)⟩

theorem EscalationEngine.policies_acknowledge (engine : EscalationEngine)
    (escalationId acknowledgedBy : String) (now : Nat) :
    (engine.acknowledge escalationId acknowledgedBy now).1.policies = engine.policies := by
  rw [acknowledge]
  split
  · rfl
  · split_ifs <;> rfl

end Wardex.Escalation
