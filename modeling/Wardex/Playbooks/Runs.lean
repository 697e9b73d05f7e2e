import Wardex.Lib.Decimal
import Wardex.Lib.Run
import Wardex.Playbooks.Works

/-! Sequences of `run_playbook` and `resume_execution` calls on an engine with registered
playbooks.  A call that panics ends the sequence. -/

namespace Wardex.Playbooks

open Wardex.Lib Wardex.Policy

inductive Call where
  | runPlaybook (playbookId : String) (alertId : Option String) (executedBy : String)
      (vars : Variables) (nowMs : Nat)
  | resumeExecution (executionId approvedBy : String) (feedback : Option String) (nowMs : Nat)
deriving DecidableEq

/-- A call that has returned, with the engine before and after it. -/
structure Entry where
  before : PlaybookEngine
  call : Call
  result : Except String String
  after : PlaybookEngine

structure Session where
  engine : PlaybookEngine
  log : List Entry

/-- An engine on which nothing but `register` has been called. -/
def Session.start (playbooks : List Playbook) : Session where
  engine := playbooks.foldl PlaybookEngine.register PlaybookEngine.new
  log := []

section

variable (F : Type) [F64 F] (ops : TextOps)

def Call.perform (eng : PlaybookEngine) :
    Call → Except Abort (PlaybookEngine × Except String String)
  | .runPlaybook playbookId alertId executedBy vars nowMs =>
    eng.runPlaybook F ops playbookId alertId executedBy vars nowMs
  | .resumeExecution executionId approvedBy feedback nowMs =>
    eng.resumeExecution F ops executionId approvedBy feedback nowMs

def Session.step (s : Session) (call : Call) : Except Abort Session :=
  match call.perform F ops s.engine with
  | .error abort => .error abort
  | .ok (after, result) =>
    .ok { engine := after, log := s.log ++ [⟨s.engine, call, result, after⟩] }

def Session.run (s : Session) (calls : List Call) : Except Abort Session :=
  runPartial (Session.step F ops) s calls

end

variable {F : Type} [F64 F] {ops : TextOps}

namespace PlaybookEngine

/-- Everything a call that returns can do. -/
inductive Effect (F : Type) [F64 F] (ops : TextOps) (eng : PlaybookEngine) :
    Call → Except String String → PlaybookEngine → Prop
  | refused (call : Call) (message : String) : Effect F ops eng call (.error message) eng
  | began {playbookId : String} {alertId : Option String} {executedBy : String} {vars : Variables}
      {nowMs n : Nat} {pb : Playbook} {e' : PlaybookExecution}
      (hpb : eng.getPlaybook playbookId = some pb)
      (hworks : Works F ops pb.steps 0 n
        { eng.newExecution pb playbookId alertId executedBy nowMs with vars := vars } e')
      (hid : e'.executionId = execId eng.nextExecId) :
      Effect F ops eng (.runPlaybook playbookId alertId executedBy vars nowMs)
        (.ok (execId eng.nextExecId))
        { eng with executions := eng.executions ++ [e'], nextExecId := eng.nextExecId + 1 }
  | resumed {id approvedBy stepId : String} {feedback output : Option String} {nowMs k n : Nat}
      {pb : Playbook} {e e' : PlaybookExecution} (he : eng.getExecution id = some e)
      (hwait : e.status = .awaitingApproval) (hstep : e.approvalStepId = some stepId)
      (hpb : eng.getPlaybook e.playbookId = some pb)
      (hk : pb.steps.findIdx? (fun s => s.id = stepId) = some k)
      (hworks : Works F ops pb.steps (k + 1) n
        ((e.updateStep stepId .succeeded output none nowMs).grant stepId approvedBy feedback) e')
      (hid : e'.executionId = id) :
      Effect F ops eng (.resumeExecution id approvedBy feedback nowMs) (.ok id)
        (eng.modifyExecution id fun _ => e')

/-- Execution ids come from the counter, so the next one is free. -/
def Numbered (eng : PlaybookEngine) : Prop :=
  ∀ e ∈ eng.executions, ∃ n < eng.nextExecId, e.executionId = execId n

theorem Numbered.next_free {eng : PlaybookEngine} (h : eng.Numbered) :
    eng.getExecution (execId eng.nextExecId) = none := by
  apply List.find?_eq_none.mpr
  intro e he
  obtain ⟨n, hn, hid⟩ := h e he
  have hne : execId n ≠ execId eng.nextExecId :=
    fun heq => hn.ne (numbered_injective "exec-" heq)
  simpa [hid] using hne

theorem getExecution_append_self {eng : PlaybookEngine} {e : PlaybookExecution} {next : Nat}
    (hfree : eng.getExecution e.executionId = none) :
    { eng with executions := eng.executions ++ [e], nextExecId := next }.getExecution
      e.executionId = some e := by
  unfold getExecution at hfree ⊢
  rw [List.find?_append, hfree, List.find?_cons_of_pos (by simp), Option.none_or]

theorem getExecution_append_ne {eng : PlaybookEngine} {e : PlaybookExecution} {id : String}
    {next : Nat} (hne : id ≠ e.executionId) :
    { eng with executions := eng.executions ++ [e], nextExecId := next }.getExecution id =
      eng.getExecution id := by
  unfold getExecution
  rw [List.find?_append, List.find?_cons_of_neg (by simpa using Ne.symm hne), List.find?_nil,
    Option.or_none]

theorem modify_append {eng : PlaybookEngine} {e : PlaybookExecution} (next : Nat)
    (f : PlaybookExecution → PlaybookExecution) (hfree : eng.getExecution e.executionId = none) :
    { eng with executions := eng.executions ++ [e], nextExecId := next }.modifyExecution
      e.executionId f =
    { eng with executions := eng.executions ++ [f e], nextExecId := next } := by
  rw [modifyExecution, updateFirst_append hfree, updateFirst, if_pos (by simp)]

/-- Working through the steps of an execution that has just been added. -/
theorem continueExecution_append {eng eng' : PlaybookEngine} {e : PlaybookExecution}
    {next startIdx nowMs : Nat} {steps : List PlaybookStep}
    (hfree : eng.getExecution e.executionId = none)
    (h : continueExecution F ops
      { eng with executions := eng.executions ++ [e], nextExecId := next } e.executionId steps
      startIdx nowMs = .ok eng') :
    ∃ n e', Works F ops steps startIdx n e e' ∧ e'.executionId = e.executionId ∧
      eng' = { eng with executions := eng.executions ++ [e'], nextExecId := next } := by
  obtain ⟨n, e', hworks, hid, rfl⟩ := continueLoop_works (getExecution_append_self hfree) h
  exact ⟨n, e', hworks, hid, modify_append _ _ hfree⟩

/-- Working through the steps after an execution has been changed. -/
theorem continueExecution_modify {eng eng' : PlaybookEngine} {id : String}
    {e : PlaybookExecution} {f : PlaybookExecution → PlaybookExecution} {startIdx nowMs : Nat}
    {steps : List PlaybookStep} (he : eng.getExecution id = some e)
    (hf : ∀ e, e.executionId = id → (f e).executionId = id)
    (h : continueExecution F ops (eng.modifyExecution id f) id steps startIdx nowMs = .ok eng') :
    ∃ n e', Works F ops steps startIdx n (f e) e' ∧ e'.executionId = id ∧
      eng' = eng.modifyExecution id fun _ => e' := by
  have hfound : (eng.modifyExecution id f).getExecution id = some (f e) := by
    rw [getExecution_modify hf, he, Option.map_some]
  obtain ⟨n, e', hworks, hid, rfl⟩ := continueLoop_works hfound h
  exact ⟨n, e', hworks, hid, modify_modify hf⟩

theorem runPlaybook_effect {eng eng' : PlaybookEngine} {playbookId executedBy : String}
    {alertId : Option String} {vars : Variables} {nowMs : Nat} {result : Except String String}
    (hnum : eng.Numbered)
    (h : eng.runPlaybook F ops playbookId alertId executedBy vars nowMs = .ok (eng', result)) :
    Effect F ops eng (.runPlaybook playbookId alertId executedBy vars nowMs) result eng' := by
  simp only [runPlaybook, startExecution] at h
  cases hpb : eng.getPlaybook playbookId with
  | none =>
    simp only [hpb] at h
    cases h
    exact .refused _ _
  | some pb =>
    simp only [hpb] at h
    split_ifs at h
    · have hfree : eng.getExecution (eng.newExecution pb playbookId alertId executedBy
        nowMs).executionId = none := hnum.next_free
      have hready := modify_append (eng.nextExecId + 1) (fun e => { e with vars := vars }) hfree
      obtain ⟨eng'', hgo, heq⟩ := map_eq_ok h
      cases heq
      obtain ⟨n, e', hworks, hid, rfl⟩ := continueExecution_append
        (e := { eng.newExecution pb playbookId alertId executedBy nowMs with vars := vars }) hfree
        ((congrArg (continueExecution F ops · _ pb.steps 0 nowMs) hready).symm.trans hgo)
      exact .began hpb hworks hid
    · cases h
      exact .refused _ _

theorem resumePoint_ok {eng : PlaybookEngine} {id stepId : String} {pb : Playbook} {index : Nat}
    (h : eng.resumePoint id = .ok (pb, stepId, index)) :
    ∃ e k, eng.getExecution id = some e ∧ e.status = .awaitingApproval ∧
      e.approvalStepId = some stepId ∧ eng.getPlaybook e.playbookId = some pb ∧
      pb.steps.findIdx? (fun s => s.id = stepId) = some k ∧ index = k + 1 := by
  rw [resumePoint] at h
  split at h
  · cases h
  · next e he =>
    split_ifs at h with hwait
    split at h
    · cases h
    · next hstep =>
      split at h
      · cases h
      · next hpb =>
        split at h
        · cases h
        · next k hk =>
          cases h
          exact ⟨e, k, he, hwait, hstep, hpb, hk, rfl⟩

theorem resumeExecution_effect {eng eng' : PlaybookEngine} {id approvedBy : String}
    {feedback : Option String} {nowMs : Nat} {result : Except String String}
    (h : eng.resumeExecution F ops id approvedBy feedback nowMs = .ok (eng', result)) :
    Effect F ops eng (.resumeExecution id approvedBy feedback nowMs) result eng' := by
  rw [resumeExecution] at h
  cases hpoint : eng.resumePoint id with
  | error message =>
    simp only [hpoint] at h
    cases h
    exact .refused _ _
  | ok point =>
    obtain ⟨pb, stepId, index⟩ := point
    simp only [hpoint, grantApproval, updateStep_modify] at h
    obtain ⟨e, k, he, hwait, hstep, hpb, hk, rfl⟩ := resumePoint_ok hpoint
    obtain ⟨eng'', hgo, heq⟩ := map_eq_ok h
    cases heq
    obtain ⟨n, e', hworks, hid, rfl⟩ := continueExecution_modify he (fun _ hid => by exact hid) hgo
    exact .resumed he hwait hstep hpb hk hworks hid

/-- From `eng` to `eng'` one execution is added or replaced and all else is left alone. -/
structure Sets (eng : PlaybookEngine) (id : String) (e' : PlaybookExecution)
    (eng' : PlaybookEngine) : Prop where
  self : eng'.getExecution id = some e'
  other : ∀ other, other ≠ id → eng'.getExecution other = eng.getExecution other
  playbooks : eng'.playbooks = eng.playbooks
  numbered : eng'.Numbered

theorem sets_append {eng : PlaybookEngine} {e' : PlaybookExecution} (hnum : eng.Numbered)
    (hid : e'.executionId = execId eng.nextExecId) :
    Sets eng (execId eng.nextExecId) e'
      { eng with executions := eng.executions ++ [e'], nextExecId := eng.nextExecId + 1 } where
  self := by
    rw [← hid]
    exact getExecution_append_self (hid ▸ hnum.next_free)
  other other hne := getExecution_append_ne (hid ▸ hne)
  playbooks := rfl
  numbered e he := by
    rcases List.mem_append.mp he with hold | hnew
    · obtain ⟨m, hm, hmid⟩ := hnum e hold
      exact ⟨m, Nat.lt_succ_of_lt hm, hmid⟩
    · rw [List.mem_singleton.mp hnew]
      exact ⟨_, Nat.lt_succ_self _, hid⟩

theorem sets_modify {eng : PlaybookEngine} {id : String} {e e' : PlaybookExecution}
    (hnum : eng.Numbered) (he : eng.getExecution id = some e) (hid : e'.executionId = id) :
    Sets eng id e' (eng.modifyExecution id fun _ => e') where
  self := by rw [getExecution_modify fun _ _ => hid, he, Option.map_some]
  other other hne := getExecution_modify_other hne fun _ _ => hid
  playbooks := rfl
  numbered e₁ he₁ := by
    rcases mem_updateFirst he₁ with hold | ⟨a, ha, rfl⟩
    · exact hnum e₁ hold
    · obtain ⟨m, hm, hmid⟩ := hnum a (List.mem_of_find?_eq_some ha)
      exact ⟨m, hm, (hid.trans (getExecution_id ha).symm).trans hmid⟩

theorem Sets.getPlaybook_eq {eng eng' : PlaybookEngine} {id : String} {e' : PlaybookExecution}
    (h : Sets eng id e' eng') : eng'.getPlaybook = eng.getPlaybook := by
  unfold getPlaybook
  rw [h.playbooks]

/-- What `run_playbook` and `resume_execution` do, each branch of theirs accounted for. -/
theorem perform_effect {eng eng' : PlaybookEngine} {call : Call} {result : Except String String}
    (hnum : eng.Numbered) (h : call.perform F ops eng = .ok (eng', result)) :
    Effect F ops eng call result eng' := by
  cases call with
  | runPlaybook => exact runPlaybook_effect hnum h
  | resumeExecution => exact resumeExecution_effect h

end PlaybookEngine

theorem Session.step_ok {s t : Session} {call : Call} (hnum : s.engine.Numbered)
    (h : s.step F ops call = .ok t) : ∃ result,
      PlaybookEngine.Effect F ops s.engine call result t.engine ∧
      t.log = s.log ++ [⟨s.engine, call, result, t.engine⟩] := by
  rw [Session.step] at h
  split at h
  · cases h
  · next after result hperform =>
    cases h
    exact ⟨result, PlaybookEngine.perform_effect hnum hperform, rfl⟩

theorem Session.start_executions (playbooks : List Playbook) :
    (Session.start playbooks).engine.executions = [] := by
  have hempty : ∀ (l : List Playbook) (eng : PlaybookEngine),
      eng.executions = [] → (l.foldl PlaybookEngine.register eng).executions = [] := by
    intro l
    induction l with
    | nil => exact fun _ h => h
    | cons p l ih => exact fun eng h => ih (eng.register p) h
  exact hempty playbooks _ rfl

theorem Session.start_getExecution (playbooks : List Playbook) (id : String) :
    (Session.start playbooks).engine.getExecution id = none := by
  rw [PlaybookEngine.getExecution, start_executions, List.find?_nil]

theorem Session.start_numbered (playbooks : List Playbook) :
    (Session.start playbooks).engine.Numbered := by
  intro e he
  rw [start_executions] at he
  cases he

end Wardex.Playbooks
