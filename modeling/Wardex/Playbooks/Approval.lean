import Wardex.Playbooks.Runs

/-! The approval gate: what stands behind the approval steps of a playbook succeeds only after
`resume_execution` has granted each of them, in the order of the list. -/

namespace Wardex.Playbooks

open Wardex.Lib Wardex.Policy

variable {F : Type} [F64 F] {ops : TextOps}

/-- The ids of the approval steps, in order. -/
def approvalIds (steps : List PlaybookStep) : List String :=
  (steps.filter fun s => s.stepType.isApproval).map (·.id)

/-- The entry is a `resume_execution` call on the execution that returned `Ok`. -/
def Entry.resumedOk (entry : Entry) (id : String) : Bool :=
  match entry.call, entry.result with
  | .resumeExecution executionId _ _ _, .ok _ => executionId = id
  | _, _ => false

/-- The approval step that the execution names as the last one granted. -/
def Entry.approved (entry : Entry) (id : String) : Option String :=
  (entry.after.getExecution id).bind fun e => e.vars.get "last_approval_step"

/-- For each `resume_execution` call on the execution that returned `Ok`, the approval step that
it granted. -/
def Session.approvals (s : Session) (id : String) : List (Option String) :=
  (s.log.filter fun entry => entry.resumedOk id).map fun entry => entry.approved id

theorem approvalIds_append (a b : List PlaybookStep) :
    approvalIds (a ++ b) = approvalIds a ++ approvalIds b := by
  simp [approvalIds]

theorem approvalIds_take_isPrefix (steps : List PlaybookStep) {j n : Nat} (h : j ≤ n) :
    approvalIds (steps.take j) <+: approvalIds (steps.take n) := by
  apply List.IsPrefix.map
  apply List.IsPrefix.filter
  exact List.take_prefix_take_left h

theorem approvalIds_take_succ {steps : List PlaybookStep} {n : Nat} {step : PlaybookStep}
    (h : steps[n]? = some step) (hgate : step.stepType.isApproval = true) :
    approvalIds (steps.take (n + 1)) = approvalIds (steps.take n) ++ [step.id] := by
  rw [List.take_add_one, h, Option.toList_some, approvalIds_append]
  simp [approvalIds, hgate]

theorem Works.approvalIds_take {steps : List PlaybookStep} {i n : Nat}
    {e e' : PlaybookExecution} (h : Works F ops steps i n e e') :
    approvalIds (steps.take n) = approvalIds (steps.take i) := by
  have hnone : ∀ m, i + m ≤ n → approvalIds (steps.take (i + m)) = approvalIds (steps.take i) := by
    intro m
    induction m with
    | zero => exact fun _ => rfl
    | succ m ih =>
      intro hm
      obtain ⟨step, hstep, hgate⟩ := h.between (Nat.le_add_right i m) hm
      rw [← Nat.add_assoc, List.take_add_one, hstep, Option.toList_some, approvalIds_append,
        ih (by omega)]
      simp [approvalIds, hgate]
  have hle := h.start_le
  have hlast := hnone (n - i) (by omega)
  rwa [Nat.add_sub_cancel' hle] at hlast

/-- Two positions of a list without repetitions that hold the same id are one. -/
theorem index_unique {steps : List PlaybookStep} (hnd : (steps.map (·.id)).Nodup) {i j : Nat}
    {a b : PlaybookStep} (hi : steps[i]? = some a) (hj : steps[j]? = some b) (hid : a.id = b.id) :
    i = j := by
  obtain ⟨hlt, _⟩ := List.getElem?_eq_some_iff.mp hi
  have hlt' : i < (steps.map (·.id)).length := by rwa [List.length_map]
  apply (List.getElem?_inj hlt' hnd).mp
  rw [List.getElem?_map, List.getElem?_map, hi, hj, Option.map_some, Option.map_some, hid]

/-- Only steps before position `n` have succeeded. -/
def SucceededBefore (steps : List PlaybookStep) (n : Nat) (e : PlaybookExecution) : Prop :=
  ∀ r ∈ e.stepResults, r.status = .succeeded →
    ∃ j step, j < n ∧ steps[j]? = some step ∧ step.id = r.stepId

theorem Works.succeededBefore {steps : List PlaybookStep} {i n : Nat} {e e' : PlaybookExecution}
    (h : Works F ops steps i n e e') (hprev : SucceededBefore steps i e) :
    SucceededBefore steps n e' := by
  intro r hr hs
  rcases h.result hr with ⟨r₀, hr₀, hid, hstatus⟩ | ⟨_, j, step, _, hjn, hstep, hid⟩ | hwait
  · obtain ⟨j, step, hj, hstep, hstepId⟩ := hprev r₀ hr₀ (hstatus.trans hs)
    exact ⟨j, step, hj.trans_le h.start_le, hstep, hstepId.trans hid⟩
  · exact ⟨j, step, hjn, hstep, hid⟩
  · rw [hs] at hwait
    cases hwait

/-- Everything up to position `n` has been worked through, the approvals before it are the ones
granted, and an execution that waits does so at `n`. -/
def StandsAt (pb : Playbook) (granted : List (Option String)) (e : PlaybookExecution) : Prop :=
  ∃ n, granted = (approvalIds (pb.steps.take n)).map some ∧ SucceededBefore pb.steps n e ∧
    (e.status = .awaitingApproval → ∃ step, pb.steps[n]? = some step ∧
      step.stepType.isApproval = true ∧ e.vars.get "pending_approval_step" = some step.id)

theorem standsAt_begun {pb : Playbook} {e e' : PlaybookExecution} {n : Nat}
    (h : Works F ops pb.steps 0 n e e') (hpending : ∀ r ∈ e.stepResults, r.status = .pending) :
    StandsAt pb [] e' := by
  refine ⟨n, ?_, h.succeededBefore fun r hr hs => ?_, h.awaiting⟩
  · rw [h.approvalIds_take]
    rfl
  · rw [hpending r hr] at hs
    cases hs

theorem get_grant (e : PlaybookExecution) (stepId approvedBy : String) (feedback : Option String) :
    (e.grant stepId approvedBy feedback).vars.get "last_approval_step" = some stepId :=
  Variables.get_insert _ _ _

theorem standsAt_resumed {pb : Playbook} {granted : List (Option String)}
    {e e' : PlaybookExecution} {stepId approvedBy : String} {feedback output : Option String}
    {nowMs k n : Nat} (hnd : (pb.steps.map (·.id)).Nodup) (hs : StandsAt pb granted e)
    (hwait : e.status = .awaitingApproval) (hstep : e.approvalStepId = some stepId)
    (hk : pb.steps.findIdx? (fun s => s.id = stepId) = some k)
    (h : Works F ops pb.steps (k + 1) n
      ((e.updateStep stepId .succeeded output none nowMs).grant stepId approvedBy feedback) e') :
    StandsAt pb (granted ++ [some stepId]) e' := by
  obtain ⟨m, hgranted, hbefore, hm⟩ := hs
  obtain ⟨step, hstepm, hgate, hget⟩ := hm hwait
  have hid : step.id = stepId := by
    rw [PlaybookExecution.approvalStepId, hget, Option.some_or] at hstep
    exact Option.some.inj hstep
  -- with distinct ids the position found is the one waited at
  obtain ⟨hlt, hkid, _⟩ := List.findIdx?_eq_some_iff_getElem.mp hk
  have hkm : k = m := index_unique hnd (List.getElem?_eq_getElem hlt) hstepm
    ((of_decide_eq_true hkid).trans hid.symm)
  subst hkm
  refine ⟨n, ?_, h.succeededBefore ?_, h.awaiting⟩
  · rw [h.approvalIds_take, approvalIds_take_succ hstepm hgate, hgranted, List.map_append, hid]
    rfl
  · intro r hr hsucc
    rcases PlaybookExecution.mem_updateStep hr with hold | ⟨hrid, _⟩
    · obtain ⟨j, s, hj, hs, hsid⟩ := hbefore r hold hsucc
      exact ⟨j, s, Nat.lt_succ_of_lt hj, hs, hsid⟩
    · exact ⟨k, step, Nat.lt_succ_self k, hstepm, hid.trans hrid.symm⟩

/-- What every sequence of calls keeps. -/
structure Tracked (s : Session) : Prop where
  numbered : s.engine.Numbered
  unseen : ∀ id, s.engine.getExecution id = none → s.approvals id = []
  stands : ∀ id e pb, s.engine.getExecution id = some e →
    s.engine.getPlaybook e.playbookId = some pb → (pb.steps.map (·.id)).Nodup →
    StandsAt pb (s.approvals id) e

theorem tracked_start (playbooks : List Playbook) : Tracked (Session.start playbooks) where
  numbered := Session.start_numbered playbooks
  unseen _ _ := rfl
  stands id e pb he := by
    rw [Session.start_getExecution] at he
    cases he

theorem Session.approvals_snoc {s t : Session} {entry : Entry} (h : t.log = s.log ++ [entry])
    (id : String) : t.approvals id =
      s.approvals id ++ if entry.resumedOk id then [entry.approved id] else [] := by
  rw [Session.approvals, Session.approvals, h, List.filter_append, List.map_append]
  by_cases hr : entry.resumedOk id = true <;> simp [hr]

/-- One execution changes: it has to stand where its approvals say, the others have not moved. -/
theorem Tracked.sets {s t : Session} {id : String} {e' : PlaybookExecution} (h : Tracked s)
    (hset : PlaybookEngine.Sets s.engine id e' t.engine)
    (hother : ∀ other, other ≠ id → t.approvals other = s.approvals other)
    (hself : ∀ pb, s.engine.getPlaybook e'.playbookId = some pb → (pb.steps.map (·.id)).Nodup →
      StandsAt pb (t.approvals id) e') : Tracked t where
  numbered := hset.numbered
  unseen id' hnone := by
    by_cases hne : id' = id
    · rw [hne, hset.self] at hnone
      cases hnone
    · rw [hother id' hne]
      exact h.unseen id' (hset.other id' hne ▸ hnone)
  stands id' e pb he hpb hnd := by
    rw [hset.getPlaybook_eq] at hpb
    by_cases hne : id' = id
    · rw [hne, hset.self] at he
      cases he
      rw [hne]
      exact hself pb hpb hnd
    · rw [hset.other id' hne] at he
      rw [hother id' hne]
      exact h.stands id' e pb he hpb hnd

theorem Tracked.step {s t : Session} {call : Call} (h : Tracked s)
    (hs : s.step F ops call = .ok t) : Tracked t := by
  obtain ⟨result, heffect, hlog⟩ := Session.step_ok h.numbered hs
  generalize hengine : t.engine = eng at heffect
  cases heffect with
  | refused _ message =>
    have happrovals : ∀ id, t.approvals id = s.approvals id := by
      intro id
      rw [Session.approvals_snoc hlog]
      cases call <;> exact List.append_nil _
    refine ⟨hengine ▸ h.numbered, fun id => ?_, fun id e pb => ?_⟩
    · rw [hengine, happrovals]
      exact h.unseen id
    · rw [hengine, happrovals]
      exact h.stands id e pb
  | @began playbookId alertId executedBy vars nowMs n pb e' hpb hworks hid =>
    have happrovals : ∀ id, t.approvals id = s.approvals id := by
      intro id
      rw [Session.approvals_snoc hlog]
      exact List.append_nil _
    refine h.sets (hengine ▸ PlaybookEngine.sets_append h.numbered hid)
      (fun id _ => happrovals id) fun pb' hpb' _ => ?_
    rw [happrovals, h.unseen _ h.numbered.next_free, hworks.playbook_unique hpb hpb']
    refine standsAt_begun hworks fun r hr => ?_
    obtain ⟨step, _, rfl⟩ := List.mem_map.mp hr
    rfl
  | @resumed id approvedBy stepId feedback output nowMs k n pb e e' he hwait hstep hpb hk hworks
    hid =>
    have hset : PlaybookEngine.Sets s.engine id e' t.engine :=
      hengine ▸ PlaybookEngine.sets_modify h.numbered he hid
    refine h.sets hset (fun id' hne => ?_) fun pb' hpb' hnd => ?_
    · rw [Session.approvals_snoc hlog]
      simp [Entry.resumedOk, Ne.symm hne]
    · have hsame : pb' = pb := hworks.playbook_unique hpb hpb'
      have happroved : t.approvals id = s.approvals id ++ [some stepId] := by
        rw [Session.approvals_snoc hlog]
        simp only [Entry.resumedOk, Entry.approved, decide_true, if_true, hset.self,
          Option.bind_some, hworks.lastApproval_eq, get_grant]
      rw [happroved]
      rw [hsame] at hnd ⊢
      exact standsAt_resumed hnd (h.stands id e pb he hpb hnd) hwait hstep hk hworks

theorem tracked_run {playbooks : List Playbook} {calls : List Call} {s : Session}
    (h : (Session.start playbooks).run F ops calls = .ok s) : Tracked s :=
  runPartial_invariant (fun _ _ _ => Tracked.step) (tracked_start playbooks) h

/-- Conditions without numbers need none of the operations. -/
instance noNumbers : F64 Unit where
  zero := ()
  one := ()
  half := ()
  epsilon := ()
  add _ _ := ()
  sub _ _ := ()
  mul _ _ := ()
  div _ _ := ()
  abs _ := ()
  gt _ _ := false
  lt _ _ := false
  ge _ _ := false
  le _ _ := false
  eq _ _ := false
  parse _ := none

def asciiText : TextOps where
  toUppercase s := String.ofList (s.toList.map Char.toUpper)
  toLowercase s := String.ofList (s.toList.map Char.toLower)
  debug s := "\"" ++ s ++ "\""

def isolationPlaybook : Playbook where
  id := "isolate"
  enabled := true
  steps := [⟨"gate", .approval "secops-lead" "Approve {alert_id}", none⟩,
    ⟨"contain", .contain "isolate_host" [], none⟩]

/-- The caller presets the key under which the waiting step is looked up. -/
def isolationCalls : List Call :=
  [.runPlaybook "isolate" none "analyst" [("pending_approval_step", "contain")] 1000,
    .resumeExecution "exec-1" "secops-lead" none 2000]

def isolationRun : Except Abort Session :=
  (Session.start [isolationPlaybook]).run Unit asciiText isolationCalls

end Wardex.Playbooks
