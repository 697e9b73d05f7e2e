import Wardex.Playbooks.Engine

/-! What `continue_execution` does to one execution, told without the engine: from the start
index it marks one step after the other as succeeded, up to the next approval step, where it
suspends the execution, or to the end. -/

namespace Wardex.Playbooks

open Wardex.Lib Wardex.Policy

variable {F : Type} [F64 F] {ops : TextOps}

/-- `Works F ops steps i n e e'`: going on at index `i` takes the execution `e` to `e'`, and `n`
is the index where it stops. -/
inductive Works (F : Type) [F64 F] (ops : TextOps) (steps : List PlaybookStep) :
    Nat → Nat → PlaybookExecution → PlaybookExecution → Prop
  | done {i : Nat} {e : PlaybookExecution} (nowMs : Nat) (h : steps[i]? = none) :
    Works F ops steps i i e
      { e with status := .succeeded, error := none, finishedAt := some nowMs }
  | gate {i : Nat} {e : PlaybookExecution} {step : PlaybookStep} (approver message : String)
      (output : Option String) (nowMs : Nat) (h : steps[i]? = some step)
      (hgate : step.stepType.isApproval = true) :
    Works F ops steps i i e
      ((e.updateStep step.id .awaitingApproval output none nowMs).suspend step.id approver message)
  | next {i n : Nat} {e e' : PlaybookExecution} {step : PlaybookStep} (output : Option String)
      (nowMs : Nat) (h : steps[i]? = some step) (hgate : step.stepType.isApproval = false)
      (heval : ∀ c t el, step.stepType = .conditional c t el →
        ∃ b, evaluateCondition F ops c e.vars = some b)
      (hrest : Works F ops steps (i + 1) n (e.updateStep step.id .succeeded output none nowMs) e') :
    Works F ops steps i n e e'

namespace PlaybookEngine

theorem getExecution_id {eng : PlaybookEngine} {id : String} {e : PlaybookExecution}
    (h : eng.getExecution id = some e) : e.executionId = id := by
  simpa using List.find?_some h

theorem getExecution_modify {eng : PlaybookEngine} {id : String}
    {f : PlaybookExecution → PlaybookExecution}
    (hf : ∀ e, e.executionId = id → (f e).executionId = id) :
    (eng.modifyExecution id f).getExecution id = (eng.getExecution id).map f := by
  apply find?_updateFirst
  simpa using hf

theorem getExecution_modify_other {eng : PlaybookEngine} {id other : String}
    {f : PlaybookExecution → PlaybookExecution} (hne : other ≠ id)
    (hf : ∀ e, e.executionId = id → (f e).executionId = id) :
    (eng.modifyExecution id f).getExecution other = eng.getExecution other := by
  apply find?_updateFirst_other
  intro e he
  have hid : e.executionId = id := by simpa using he
  simp [hid, hf e hid, Ne.symm hne]

theorem modify_modify {eng : PlaybookEngine} {id : String}
    {f g : PlaybookExecution → PlaybookExecution}
    (hf : ∀ e, e.executionId = id → (f e).executionId = id) :
    (eng.modifyExecution id f).modifyExecution id g = eng.modifyExecution id (g ∘ f) := by
  have hp : ∀ e : PlaybookExecution, decide (e.executionId = id) = true →
      decide ((f e).executionId = id) = true := by simpa using hf
  simp only [modifyExecution, updateFirst_updateFirst hp]

theorem modify_congr {eng : PlaybookEngine} {id : String} {e : PlaybookExecution}
    {f g : PlaybookExecution → PlaybookExecution} (he : eng.getExecution id = some e)
    (h : f e = g e) : eng.modifyExecution id f = eng.modifyExecution id g := by
  rw [modifyExecution, modifyExecution, updateFirst_congr he h]

theorem updateStep_modify {eng : PlaybookEngine} {id stepId : String} {status : ExecutionStatus}
    {output error : Option String} {nowMs : Nat} {g : PlaybookExecution → PlaybookExecution} :
    (eng.updateStep id stepId status output error nowMs).modifyExecution id g =
      eng.modifyExecution id fun e => g (e.updateStep stepId status output error nowMs) := by
  have hkeep : ∀ e : PlaybookExecution, e.executionId = id →
      (e.updateStep stepId status output error nowMs).executionId = id := fun _ h => h
  exact modify_modify hkeep

theorem getExecution_updateStep {eng : PlaybookEngine} {id stepId : String}
    {status : ExecutionStatus} {output error : Option String} {nowMs : Nat}
    {e : PlaybookExecution} (he : eng.getExecution id = some e) :
    (eng.updateStep id stepId status output error nowMs).getExecution id =
      some (e.updateStep stepId status output error nowMs) := by
  have hkeep : ∀ e : PlaybookExecution, e.executionId = id →
      (e.updateStep stepId status output error nowMs).executionId = id := fun _ h => h
  rw [updateStep, getExecution_modify hkeep, he, Option.map_some]

/-- A step of an existing execution fails in no way but a panic. -/
theorem dispatchStep_some {eng : PlaybookEngine} {step : PlaybookStep} {id : String}
    {e : PlaybookExecution} (he : eng.getExecution id = some e)
    {r : Except String (Option String)} (h : dispatchStep F ops eng step id = some r) :
    (∃ output, r = .ok output) ∧ ∀ c t el, step.stepType = .conditional c t el →
      ∃ b, evaluateCondition F ops c e.vars = some b := by
  simp only [dispatchStep, he] at h
  split at h
  case h_4 condition thenStep elseStep hstep =>
    obtain ⟨b, hb, hr⟩ := Option.map_eq_some_iff.mp h
    constructor
    · subst hr
      split_ifs
      · exact ⟨_, rfl⟩
      · split <;> exact ⟨_, rfl⟩
    · intro c t el hc
      rw [hstep] at hc
      cases hc
      exact ⟨b, hb⟩
  all_goals
    next hstep =>
      cases h
      exact ⟨⟨_, rfl⟩, fun c t el hc => by simp [hstep] at hc⟩

/-- The loop on an existing execution is `Works`, and nothing else in the engine changes. -/
theorem continueLoop_works {id : String} {steps : List PlaybookStep} {startIdx nowMs rounds : Nat}
    {eng eng' : PlaybookEngine} {i : Nat} {e : PlaybookExecution}
    (he : eng.getExecution id = some e)
    (h : continueLoop F ops id steps startIdx nowMs rounds eng i = .ok eng') :
    ∃ n e', Works F ops steps i n e e' ∧ e'.executionId = id ∧
      eng' = eng.modifyExecution id fun _ => e' := by
  have hid := getExecution_id he
  induction rounds generalizing eng i e with
  | zero => cases h
  | succ rounds ih =>
    rw [continueLoop] at h
    cases hstep : steps[i]? with
    | none =>
      simp only [hstep] at h
      cases h
      exact ⟨i, _, .done _ hstep, hid, modify_congr he rfl⟩
    | some step =>
      simp only [hstep] at h
      cases hdispatch : dispatchStep F ops eng step id with
      | none => simp [hdispatch] at h
      | some r =>
        obtain ⟨⟨output, rfl⟩, heval⟩ := dispatchStep_some he hdispatch
        simp only [hdispatch] at h
        split at h
        · next approver template htype =>
          cases h
          simp only [he]
          refine ⟨i, _, .gate approver (substituteTemplate template e.vars) output
            (nowMs + (i - startIdx + 1) * 100) hstep (by rw [htype]; rfl), hid, ?_⟩
          rw [updateStep_modify]
          exact modify_congr he rfl
        · next htype =>
          have hgate : step.stepType.isApproval = false := by
            cases hs : step.stepType <;> first | rfl | exact absurd hs (htype _ _)
          obtain ⟨n, e', hworks, hid', rfl⟩ := ih (getExecution_updateStep he) h hid
          exact ⟨n, e', .next output _ hstep hgate heval hworks, hid', updateStep_modify⟩

end PlaybookEngine

theorem PlaybookExecution.mem_updateStep {e : PlaybookExecution} {stepId : String}
    {status : ExecutionStatus} {output error : Option String} {nowMs : Nat} {r : StepResult}
    (h : r ∈ (e.updateStep stepId status output error nowMs).stepResults) :
    r ∈ e.stepResults ∨ r.stepId = stepId ∧ r.status = status := by
  rcases mem_updateFirst h with hr | ⟨a, ha, rfl⟩
  · exact Or.inl hr
  · have hid : a.stepId = stepId := by simpa using List.find?_some ha
    exact Or.inr ⟨hid, rfl⟩

theorem PlaybookExecution.stepIds_updateStep (e : PlaybookExecution) (stepId : String)
    (status : ExecutionStatus) (output error : Option String) (nowMs : Nat) :
    (e.updateStep stepId status output error nowMs).stepResults.map (·.stepId) =
      e.stepResults.map (·.stepId) := map_updateFirst fun _ => rfl

/-- The status of the first result with a step's id. -/
def PlaybookExecution.statusOf (e : PlaybookExecution) (stepId : String) :
    Option ExecutionStatus :=
  (e.stepResults.find? fun r => r.stepId = stepId).map (·.status)

theorem PlaybookExecution.statusOf_updateStep (e : PlaybookExecution) (stepId other : String)
    (status : ExecutionStatus) (output error : Option String) (nowMs : Nat) :
    (e.updateStep stepId status output error nowMs).statusOf other =
      if other = stepId then (e.statusOf stepId).map fun _ => status else e.statusOf other := by
  simp only [statusOf, updateStep]
  by_cases h : other = stepId
  · subst h
    have hkeep : ∀ r : StepResult, decide (r.stepId = other) = true →
        decide ((r.update status output error nowMs).stepId = other) = true := fun _ hr => hr
    rw [if_pos rfl, find?_updateFirst hkeep, Option.map_map, Option.map_map]
    rfl
  · rw [if_neg h, find?_updateFirst_other]
    intro r hr
    have hid : r.stepId = stepId := by simpa using hr
    simp [StepResult.update, hid, Ne.symm h]

/-- The index of the first approval step from `i` on, or the end. -/
def gateFrom (steps : List PlaybookStep) (i : Nat) : Nat :=
  i + (steps.drop i).findIdx fun s => s.stepType.isApproval

namespace Works

variable {steps : List PlaybookStep} {i n : Nat} {e e' : PlaybookExecution}

theorem stop_eq (h : Works F ops steps i n e e') : n = gateFrom steps i := by
  unfold gateFrom
  induction h with
  | done _ h =>
    rw [List.drop_eq_nil_of_le (List.getElem?_eq_none_iff.mp h)]
    rfl
  | gate _ _ _ _ h hgate =>
    obtain ⟨hlt, rfl⟩ := List.getElem?_eq_some_iff.mp h
    rw [List.drop_eq_getElem_cons hlt, List.findIdx_cons, hgate]
    rfl
  | next _ _ h hgate _ _ ih =>
    obtain ⟨hlt, rfl⟩ := List.getElem?_eq_some_iff.mp h
    rw [List.drop_eq_getElem_cons hlt, List.findIdx_cons, hgate, ih]
    simp only [cond_false]
    omega

theorem start_le (h : Works F ops steps i n e e') : i ≤ n := by
  rw [h.stop_eq]
  exact Nat.le_add_right _ _

theorem playbookId_eq (h : Works F ops steps i n e e') : e'.playbookId = e.playbookId := by
  induction h with
  | done => rfl
  | gate => rfl
  | next _ _ _ _ _ _ ih => exact ih

theorem playbook_unique (h : Works F ops steps i n e e') {eng : PlaybookEngine} {pb pb' : Playbook}
    (hpb : eng.getPlaybook e.playbookId = some pb)
    (hpb' : eng.getPlaybook e'.playbookId = some pb') : pb' = pb := by
  rw [h.playbookId_eq] at hpb'
  exact Option.some.inj (hpb'.symm.trans hpb)

/-- No approval step lies between the start and the stop. -/
theorem between (h : Works F ops steps i n e e') {j : Nat} (hi : i ≤ j) (hn : j < n) :
    ∃ step, steps[j]? = some step ∧ step.stepType.isApproval = false := by
  induction h with
  | done => omega
  | gate => omega
  | next _ _ h hgate _ _ ih =>
    rcases Nat.eq_or_lt_of_le hi with rfl | hlt
    · exact ⟨_, h, hgate⟩
    · exact ih hlt hn

/-- Each result afterwards is an old one, a step worked through or the step waited at. -/
theorem result (h : Works F ops steps i n e e') {r : StepResult} (hr : r ∈ e'.stepResults) :
    (∃ r₀ ∈ e.stepResults, r₀.stepId = r.stepId ∧ r₀.status = r.status) ∨
      (r.status = .succeeded ∧
        ∃ j step, i ≤ j ∧ j < n ∧ steps[j]? = some step ∧ step.id = r.stepId) ∨
      r.status = .awaitingApproval := by
  induction h with
  | done => exact Or.inl ⟨r, hr, rfl, rfl⟩
  | gate =>
    rcases PlaybookExecution.mem_updateStep hr with hold | ⟨_, hstatus⟩
    · exact Or.inl ⟨r, hold, rfl, rfl⟩
    · exact Or.inr (Or.inr hstatus)
  | @next i n e e' step output nowMs h _ _ hrest ih =>
    rcases ih hr with ⟨r₀, hr₀, hid, hstatus⟩ | ⟨hstatus, j, s, hij, hjn, hs, hid⟩ | hwait
    · rcases PlaybookExecution.mem_updateStep hr₀ with hold | ⟨hid₀, hstatus₀⟩
      · exact Or.inl ⟨r₀, hold, hid, hstatus⟩
      · exact Or.inr (Or.inl ⟨hstatus ▸ hstatus₀, i, step, le_rfl, hrest.start_le, h,
          hid₀.symm.trans hid⟩)
    · exact Or.inr (Or.inl ⟨hstatus, j, s, Nat.le_of_succ_le hij, hjn, hs, hid⟩)
    · exact Or.inr (Or.inr hwait)

/-- An execution left waiting has recorded the approval step at which the loop stopped. -/
theorem awaiting (h : Works F ops steps i n e e') (hw : e'.status = .awaitingApproval) :
    ∃ step, steps[n]? = some step ∧ step.stepType.isApproval = true ∧
      e'.vars.get "pending_approval_step" = some step.id := by
  induction h with
  | done => cases hw
  | gate _ _ _ _ h hgate =>
    refine ⟨_, h, hgate, ?_⟩
    simp only [PlaybookExecution.suspend]
    rw [Variables.get_insert_of_ne (by decide), Variables.get_insert_of_ne (by decide),
      Variables.get_insert]
  | next _ _ _ _ _ _ ih => exact ih hw

theorem lastApproval_eq (h : Works F ops steps i n e e') :
    e'.vars.get "last_approval_step" = e.vars.get "last_approval_step" := by
  induction h with
  | done => rfl
  | gate =>
    simp only [PlaybookExecution.suspend]
    rw [Variables.get_insert_of_ne (by decide), Variables.get_insert_of_ne (by decide),
      Variables.get_insert_of_ne (by decide)]
    rfl
  | next _ _ _ _ _ _ ih => exact ih

end Works

end Wardex.Playbooks
