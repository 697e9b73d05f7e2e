import Wardex.Playbooks.Approval

/-! Conditional steps.  `continue_execution` records how a condition comes out and goes on with
the next step of the list, so a branch that is not taken runs all the same unless an approval
step that has not been granted holds it back. -/

namespace Wardex.Playbooks

open Wardex.Lib Wardex.Policy

/-- What a call does on an execution: the variables its steps see, the index it starts at and
the approval step it grants. -/
structure Activity where
  vars : Variables
  start : Nat
  approved : Option String
deriving DecidableEq

def Entry.activity (entry : Entry) (id : String) : Option Activity :=
  match entry.call, entry.result with
  | .runPlaybook _ _ _ vars _, .ok newId => if newId = id then some ⟨vars, 0, none⟩ else none
  | .resumeExecution executionId approvedBy feedback _, .ok _ =>
    if executionId = id then
      match entry.before.getExecution id, entry.before.resumePoint id with
      | some e, .ok (_, stepId, index) =>
        some ⟨(e.grant stepId approvedBy feedback).vars, index, some stepId⟩
      | _, _ => none
    else none
  | _, _ => none

def Session.activities (s : Session) (id : String) : List Activity :=
  s.log.filterMap fun entry => entry.activity id

/-- Position `j` lies between the start of the call and the next approval step. -/
def Activity.Covers (a : Activity) (steps : List PlaybookStep) (j : Nat) : Prop :=
  a.start ≤ j ∧ j < gateFrom steps a.start

/-- The step at which a conditional goes on for an outcome of its condition. -/
def StepType.target : StepType → Bool → Option String
  | .conditional _ thenStep _, true => some thenStep
  | .conditional _ _ elseStep, false => elseStep
  | _, _ => none

/-- The ids of the steps that a step names. -/
def PlaybookStep.names (step : PlaybookStep) : List String :=
  (match step.stepType with
    | .conditional _ thenStep elseStep => thenStep :: elseStep.toList
    | .parallel stepIds => stepIds
    | _ => []) ++ step.onFailure.toList

section

variable (F : Type) [F64 F] (ops : TextOps)

/-- The condition of the step at `i` has been evaluated to `b`. -/
def Evaluates (steps : List PlaybookStep) (acts : List Activity) (i : Nat) (b : Bool) : Prop :=
  ∃ a ∈ acts, a.Covers steps i ∧ ∃ step condition thenStep elseStep, steps[i]? = some step ∧
    step.stepType = .conditional condition thenStep elseStep ∧
    evaluateCondition F ops condition a.vars = some b

/-- A conditional names `x` for the outcome that its condition has not had, and no other step
names `x`. -/
def Untaken (steps : List PlaybookStep) (acts : List Activity) (x : String) : Prop :=
  ∃ i step, steps[i]? = some step ∧
    (∃ b, step.stepType.target b = some x ∧ Evaluates F ops steps acts i !b) ∧
    (∀ b, Evaluates F ops steps acts i b → step.stepType.target b ≠ some x) ∧
    ∀ j other, j ≠ i → steps[j]? = some other → x ∉ other.names

end

/-- Some call started at or before the step `x` with no approval step in between, or granted the
approval step `x`. -/
def Reached (steps : List PlaybookStep) (acts : List Activity) (x : String) : Prop :=
  ∃ a ∈ acts, a.approved = some x ∨
    ∃ j step, a.Covers steps j ∧ steps[j]? = some step ∧ step.id = x

/-- After every call the results of the step `x` were neither `Succeeded` nor `Failed`. -/
def Session.Idle (s : Session) (id x : String) : Prop :=
  ∀ entry ∈ s.log, ∀ e, entry.after.getExecution id = some e →
    ∀ r ∈ e.stepResults, r.stepId = x → r.status ≠ .succeeded ∧ r.status ≠ .failed

variable {F : Type} [F64 F] {ops : TextOps}

theorem Reached.mono {steps : List PlaybookStep} {acts acts' : List Activity} {x : String}
    (h : Reached steps acts x) (hsub : acts ⊆ acts') : Reached steps acts' x := by
  obtain ⟨a, ha, hx⟩ := h
  exact ⟨a, hsub ha, hx⟩

theorem Session.activities_snoc {s t : Session} {entry : Entry} (h : t.log = s.log ++ [entry])
    (id : String) : t.activities id = s.activities id ++ (entry.activity id).toList := by
  rw [Session.activities, Session.activities, h, List.filterMap_append]
  cases hact : entry.activity id <;> simp [hact]

namespace Works

variable {steps : List PlaybookStep} {i n : Nat} {e e' : PlaybookExecution}

theorem stepIds (h : Works F ops steps i n e e') :
    e'.stepResults.map (·.stepId) = e.stepResults.map (·.stepId) := by
  induction h with
  | done => rfl
  | gate => exact PlaybookExecution.stepIds_updateStep _ _ _ _ _ _
  | next _ _ _ _ _ _ ih => exact ih.trans (PlaybookExecution.stepIds_updateStep _ _ _ _ _ _)

/-- With distinct ids a step worked through is left as succeeded, and one before the start is
left as it was. -/
theorem statusOf (h : Works F ops steps i n e e') (hnd : (steps.map (·.id)).Nodup) {j : Nat}
    {step : PlaybookStep} (hj : steps[j]? = some step) (hlt : j < n) :
    e'.statusOf step.id =
      if i ≤ j then (e.statusOf step.id).map fun _ => .succeeded else e.statusOf step.id := by
  have hne : ∀ {k : Nat} {other : PlaybookStep}, steps[k]? = some other → j ≠ k →
      step.id ≠ other.id := fun hk hjk hid => hjk (index_unique hnd hj hk hid)
  induction h with
  | done => rw [if_neg (by omega)]; rfl
  | gate _ _ _ _ h =>
    rw [if_neg (by omega)]
    exact (PlaybookExecution.statusOf_updateStep _ _ _ _ _ _ _).trans (if_neg (hne h (by omega)))
  | @next i n e e' other output nowMs h _ _ _ ih =>
    rw [ih hlt, PlaybookExecution.statusOf_updateStep]
    rcases Nat.lt_trichotomy i j with hij | rfl | hij
    · rw [if_pos (Nat.succ_le_of_lt hij), if_pos hij.le, if_neg (hne h hij.ne')]
    · obtain rfl : step = other := Option.some.inj (hj.symm.trans h)
      rw [if_neg (Nat.not_succ_le_self i), if_pos le_rfl, if_pos rfl]
    · rw [if_neg (by omega), if_neg (hne h hij.ne), if_neg (Nat.not_le_of_lt hij)]

end Works

/-- What has succeeded was reached by a call, and nothing has failed. -/
def Sound (eng : PlaybookEngine) (acts : String → List Activity) : Prop :=
  ∀ id e pb, eng.getExecution id = some e → eng.getPlaybook e.playbookId = some pb →
    ∀ r ∈ e.stepResults, r.status ≠ .failed ∧
      (r.status = .succeeded → Reached pb.steps (acts id) r.stepId)

theorem Sound.mono {eng : PlaybookEngine} {acts acts' : String → List Activity}
    (h : Sound eng acts) (hsub : ∀ id, acts id ⊆ acts' id) : Sound eng acts' :=
  fun id e pb he hpb r hr => ⟨(h id e pb he hpb r hr).1,
    fun hs => ((h id e pb he hpb r hr).2 hs).mono (hsub id)⟩

/-- With distinct ids every step that the call reached has succeeded when it returns. -/
def Entry.Complete (entry : Entry) : Prop :=
  ∀ id a, entry.activity id = some a → ∃ e, entry.after.getExecution id = some e ∧
    ∀ pb, entry.after.getPlaybook e.playbookId = some pb → (pb.steps.map (·.id)).Nodup →
      ∀ x, Reached pb.steps [a] x → e.statusOf x = some .succeeded

structure Recorded (s : Session) : Prop where
  numbered : s.engine.Numbered
  registry : ∀ entry ∈ s.log, entry.after.getPlaybook = s.engine.getPlaybook
  stable : ∀ entry ∈ s.log, ∀ id e, entry.after.getExecution id = some e →
    ∃ e', s.engine.getExecution id = some e' ∧ e'.playbookId = e.playbookId
  shape : ∀ id e pb, s.engine.getExecution id = some e →
    s.engine.getPlaybook e.playbookId = some pb →
    e.stepResults.map (·.stepId) = pb.steps.map (·.id)
  sound : Sound s.engine s.activities
  soundLog : ∀ entry ∈ s.log, Sound entry.after s.activities
  complete : ∀ entry ∈ s.log, entry.Complete

theorem recorded_start (playbooks : List Playbook) : Recorded (Session.start playbooks) where
  numbered := Session.start_numbered playbooks
  registry _ h := absurd h List.not_mem_nil
  stable _ h := absurd h List.not_mem_nil
  shape id e pb he := by
    rw [Session.start_getExecution] at he
    cases he
  sound id e pb he := by
    rw [Session.start_getExecution] at he
    cases he
  soundLog _ h := absurd h List.not_mem_nil
  complete _ h := absurd h List.not_mem_nil

/-- What an execution shows once a call has gone on with it. -/
structure Accounts (steps : List PlaybookStep) (acts : List Activity) (a : Activity)
    (e' : PlaybookExecution) : Prop where
  shape : e'.stepResults.map (·.stepId) = steps.map (·.id)
  sound : ∀ r ∈ e'.stepResults, r.status ≠ .failed ∧
    (r.status = .succeeded → Reached steps (acts ++ [a]) r.stepId)
  covered : (steps.map (·.id)).Nodup → ∀ x, Reached steps [a] x → e'.statusOf x = some .succeeded

theorem Session.mem_log_snoc {s t : Session} {entry entry' : Entry}
    (hlog : t.log = s.log ++ [entry]) (h : entry' ∈ t.log) : entry' ∈ s.log ∨ entry' = entry := by
  rw [hlog] at h
  exact (List.mem_append.mp h).imp_right List.mem_singleton.mp

/-- A call that changes nothing. -/
theorem Recorded.refused {s t : Session} {entry : Entry} (h : Recorded s)
    (hlog : t.log = s.log ++ [entry]) (hafter : entry.after = t.engine)
    (hengine : t.engine = s.engine) (hnone : ∀ id, entry.activity id = none) : Recorded t := by
  have hacts : t.activities = s.activities := by
    funext id
    rw [Session.activities_snoc hlog, hnone]
    exact List.append_nil _
  refine ⟨hengine ▸ h.numbered, fun entry' he => ?_, fun entry' he => ?_, hengine ▸ h.shape,
    by rw [hengine, hacts]; exact h.sound, fun entry' he => ?_, fun entry' he => ?_⟩
  · rcases Session.mem_log_snoc hlog he with hold | rfl
    · exact hengine ▸ h.registry entry' hold
    · rw [hafter]
  · rcases Session.mem_log_snoc hlog he with hold | rfl
    · exact hengine ▸ h.stable entry' hold
    · exact fun id e hget => ⟨e, hafter ▸ hget, rfl⟩
  · rw [hacts]
    rcases Session.mem_log_snoc hlog he with hold | rfl
    · exact h.soundLog entry' hold
    · rw [hafter, hengine]
      exact h.sound
  · rcases Session.mem_log_snoc hlog he with hold | rfl
    · exact h.complete entry' hold
    · intro id a ha
      rw [hnone] at ha
      cases ha

/-- A call that goes on with one execution, which accounts for it. -/
theorem Recorded.sets {s t : Session} {entry : Entry} {id : String} {a : Activity}
    {e' : PlaybookExecution} (h : Recorded s) (hlog : t.log = s.log ++ [entry])
    (hafter : entry.after = t.engine) (hset : PlaybookEngine.Sets s.engine id e' t.engine)
    (hself : entry.activity id = some a)
    (hother : ∀ other, other ≠ id → entry.activity other = none)
    (hkeep : ∀ e, s.engine.getExecution id = some e → e'.playbookId = e.playbookId)
    (hnew : ∀ pb, s.engine.getPlaybook e'.playbookId = some pb →
      Accounts pb.steps (s.activities id) a e') : Recorded t := by
  have hacts : ∀ id, t.activities id = s.activities id ++ (entry.activity id).toList :=
    Session.activities_snoc hlog
  have hgrow : ∀ id, s.activities id ⊆ t.activities id := by
    intro id
    rw [hacts]
    exact List.subset_append_left _ _
  have hsound : Sound t.engine t.activities := by
    intro id' e pb he hpb r hr
    rw [hset.getPlaybook_eq] at hpb
    by_cases hne : id' = id
    · rw [hne, hset.self] at he
      cases he
      rw [hne, hacts id, hself]
      exact (hnew pb hpb).sound r hr
    · rw [hset.other id' hne] at he
      exact h.sound.mono hgrow id' e pb he hpb r hr
  refine ⟨hset.numbered, fun entry' he => ?_, fun entry' he id' e hget => ?_,
    fun id' e pb he hpb => ?_, hsound, fun entry' he => ?_, fun entry' he => ?_⟩
  · rcases Session.mem_log_snoc hlog he with hold | rfl
    · exact (h.registry entry' hold).trans hset.getPlaybook_eq.symm
    · rw [hafter]
  · rcases Session.mem_log_snoc hlog he with hold | rfl
    · obtain ⟨e₁, he₁, hpbid⟩ := h.stable entry' hold id' e hget
      by_cases hne : id' = id
      · subst hne
        exact ⟨e', hset.self, (hkeep e₁ he₁).trans hpbid⟩
      · exact ⟨e₁, (hset.other id' hne).trans he₁, hpbid⟩
    · exact ⟨e, hafter ▸ hget, rfl⟩
  · rw [hset.getPlaybook_eq] at hpb
    by_cases hne : id' = id
    · rw [hne, hset.self] at he
      cases he
      exact (hnew pb hpb).shape
    · rw [hset.other id' hne] at he
      exact h.shape id' e pb he hpb
  · rcases Session.mem_log_snoc hlog he with hold | rfl
    · exact (h.soundLog entry' hold).mono hgrow
    · rwa [hafter]
  · rcases Session.mem_log_snoc hlog he with hold | rfl
    · exact h.complete entry' hold
    · intro id' a' ha'
      by_cases hne : id' = id
      · rw [hne, hself] at ha'
        cases ha'
        rw [hafter, hne]
        refine ⟨e', hset.self, fun pb hpb => ?_⟩
        rw [hset.getPlaybook_eq] at hpb
        exact (hnew pb hpb).covered
      · rw [hother id' hne] at ha'
        cases ha'

theorem Works.reached {steps : List PlaybookStep} {i n : Nat} {e e' : PlaybookExecution}
    {acts : List Activity} {a : Activity} (h : Works F ops steps i n e e') (ha : a ∈ acts)
    (hstart : a.start = i)
    (hprev : ∀ r ∈ e.stepResults, r.status ≠ .failed ∧
      (r.status = .succeeded → Reached steps acts r.stepId)) :
    ∀ r ∈ e'.stepResults, r.status ≠ .failed ∧
      (r.status = .succeeded → Reached steps acts r.stepId) := by
  intro r hr
  rcases h.result hr with ⟨r₀, hr₀, hid, hstatus⟩ | ⟨hstatus, j, step, hij, hjn, hstep, hid⟩ | hwait
  · rw [← hid, ← hstatus]
    exact hprev r₀ hr₀
  · refine ⟨by simp [hstatus], fun _ => ⟨a, ha, Or.inr ⟨j, step, ⟨?_, ?_⟩, hstep, hid⟩⟩⟩
    · rwa [hstart]
    · rwa [hstart, ← h.stop_eq]
  · exact ⟨by simp [hwait], by simp [hwait]⟩

theorem statusOf_isSome {e : PlaybookExecution} {steps : List PlaybookStep}
    (h : e.stepResults.map (·.stepId) = steps.map (·.id)) {j : Nat} {step : PlaybookStep}
    (hj : steps[j]? = some step) : ∃ st, e.statusOf step.id = some st := by
  have hmem : step.id ∈ e.stepResults.map (·.stepId) :=
    h ▸ List.mem_map_of_mem (List.mem_of_getElem? hj)
  obtain ⟨r, hr, hid⟩ := List.mem_map.mp hmem
  have hfound : (e.stepResults.find? fun r => r.stepId = step.id).isSome = true :=
    List.find?_isSome.mpr ⟨r, hr, by simpa using hid⟩
  obtain ⟨r', hr'⟩ := Option.isSome_iff_exists.mp hfound
  exact ⟨r'.status, congrArg (Option.map _) hr'⟩

/-- The steps covered by a call that starts at `i` have succeeded. -/
theorem Works.covered {steps : List PlaybookStep} {i n : Nat} {e e' : PlaybookExecution}
    {a : Activity} (h : Works F ops steps i n e e') (hstart : a.start = i)
    (hshape : e.stepResults.map (·.stepId) = steps.map (·.id)) (hnd : (steps.map (·.id)).Nodup)
    {j : Nat} {step : PlaybookStep} (hj : steps[j]? = some step) (hc : a.Covers steps j) :
    e'.statusOf step.id = some .succeeded := by
  obtain ⟨st, hst⟩ := statusOf_isSome hshape hj
  rw [h.statusOf hnd hj (by rw [h.stop_eq, ← hstart]; exact hc.2), if_pos (hstart ▸ hc.1), hst,
    Option.map_some]

theorem Works.accounts_begun {eng : PlaybookEngine} {pb : Playbook} {playbookId executedBy : String}
    {alertId : Option String} {vars : Variables} {nowMs n : Nat} {e' : PlaybookExecution}
    (h : Works F ops pb.steps 0 n
      { eng.newExecution pb playbookId alertId executedBy nowMs with vars := vars } e')
    (acts : List Activity) : Accounts pb.steps acts ⟨vars, 0, none⟩ e' := by
  have hshape : (pb.steps.map fun s : PlaybookStep =>
      (⟨s.id, .pending, 0, none, none, none⟩ : StepResult)).map (·.stepId) =
      pb.steps.map (·.id) := by
    rw [List.map_map]
    rfl
  have hlast : (⟨vars, 0, none⟩ : Activity) ∈ acts ++ [⟨vars, 0, none⟩] :=
    List.mem_append_right _ List.mem_cons_self
  refine ⟨h.stepIds.trans hshape, h.reached hlast rfl ?_, fun hnd x hx => ?_⟩
  · intro r hr
    obtain ⟨step, _, rfl⟩ := List.mem_map.mp hr
    exact ⟨by simp, by simp⟩
  · obtain ⟨a, ha, happ | ⟨j, step, hc, hj, rfl⟩⟩ := hx
    · rw [List.mem_singleton.mp ha] at happ
      cases happ
    · rw [List.mem_singleton.mp ha] at hc
      exact h.covered rfl hshape hnd hj hc

/-- A resumed execution accounts for the step that was granted as well. -/
theorem Works.accounts_resumed {pb : Playbook} {stepId approvedBy : String}
    {feedback output : Option String} {nowMs k n : Nat} {e e' : PlaybookExecution}
    {acts : List Activity}
    (h : Works F ops pb.steps (k + 1) n
      ((e.updateStep stepId .succeeded output none nowMs).grant stepId approvedBy feedback) e')
    (hk : pb.steps.findIdx? (fun s => s.id = stepId) = some k)
    (hshape : e.stepResults.map (·.stepId) = pb.steps.map (·.id))
    (hsound : ∀ r ∈ e.stepResults, r.status ≠ .failed ∧
      (r.status = .succeeded → Reached pb.steps acts r.stepId)) :
    Accounts pb.steps acts ⟨(e.grant stepId approvedBy feedback).vars, k + 1, some stepId⟩ e' := by
  have hshape' : (e.updateStep stepId .succeeded output none nowMs).stepResults.map (·.stepId) =
      pb.steps.map (·.id) :=
    (e.stepIds_updateStep stepId .succeeded output none nowMs).trans hshape
  have hlast : (⟨(e.grant stepId approvedBy feedback).vars, k + 1, some stepId⟩ : Activity) ∈
      acts ++ [⟨(e.grant stepId approvedBy feedback).vars, k + 1, some stepId⟩] :=
    List.mem_append_right _ List.mem_cons_self
  obtain ⟨hlt, hkid, _⟩ := List.findIdx?_eq_some_iff_getElem.mp hk
  have hkstep : pb.steps[k]? = some pb.steps[k] := List.getElem?_eq_getElem hlt
  have hkid' : pb.steps[k].id = stepId := of_decide_eq_true hkid
  refine ⟨h.stepIds.trans hshape', h.reached hlast rfl ?_, fun hnd x hx => ?_⟩
  · intro r hr
    rcases PlaybookExecution.mem_updateStep hr with hold | ⟨hrid, hrs⟩
    · exact ⟨(hsound r hold).1,
        fun hsucc => ((hsound r hold).2 hsucc).mono (List.subset_append_left _ _)⟩
    · exact ⟨by simp [hrs], fun _ => ⟨_, hlast, Or.inl (congrArg some hrid.symm)⟩⟩
  · obtain ⟨a, ha, happ | ⟨j, step, hc, hj, rfl⟩⟩ := hx
    · rw [List.mem_singleton.mp ha] at happ
      obtain rfl : stepId = x := Option.some.inj happ
      have hn : k < n := Nat.lt_of_succ_le h.start_le
      obtain ⟨st, hst⟩ := statusOf_isSome hshape hkstep
      rw [← hkid', h.statusOf hnd hkstep hn, if_neg (Nat.not_succ_le_self k)]
      refine (PlaybookExecution.statusOf_updateStep _ _ _ _ _ _ _).trans ?_
      rw [if_pos hkid', ← hkid', hst, Option.map_some]
    · rw [List.mem_singleton.mp ha] at hc
      exact h.covered rfl hshape' hnd hj hc

theorem PlaybookEngine.resumePoint_eq {eng : PlaybookEngine} {id stepId : String}
    {e : PlaybookExecution} {pb : Playbook} {k : Nat} (he : eng.getExecution id = some e)
    (hwait : e.status = .awaitingApproval) (hstep : e.approvalStepId = some stepId)
    (hpb : eng.getPlaybook e.playbookId = some pb)
    (hk : pb.steps.findIdx? (fun s => s.id = stepId) = some k) :
    eng.resumePoint id = .ok (pb, stepId, k + 1) := by
  simp only [resumePoint, he, if_pos hwait, hstep, hpb, hk]

theorem Recorded.step {s t : Session} {call : Call} (h : Recorded s)
    (hs : s.step F ops call = .ok t) : Recorded t := by
  obtain ⟨result, heffect, hlog⟩ := Session.step_ok h.numbered hs
  generalize hengine : t.engine = eng at heffect
  cases heffect with
  | refused _ message =>
    refine h.refused hlog rfl hengine fun id => ?_
    cases call with
    | runPlaybook => rfl
    | resumeExecution => rfl
  | @began playbookId alertId executedBy vars nowMs n pb e' hpb hworks hid =>
    refine h.sets (a := ⟨vars, 0, none⟩) hlog rfl
      (hengine ▸ PlaybookEngine.sets_append h.numbered hid) ?_ ?_ ?_ ?_
    · exact if_pos rfl
    · exact fun other hne => if_neg (Ne.symm hne)
    · intro e he
      rw [h.numbered.next_free] at he
      cases he
    · intro pb' hpb'
      rw [hworks.playbook_unique hpb hpb']
      exact hworks.accounts_begun _
  | @resumed id approvedBy stepId feedback output nowMs k n pb e e' he hwait hstep hpb hk hworks
    hid =>
    have hact : Entry.activity ⟨s.engine, .resumeExecution id approvedBy feedback nowMs, .ok id,
        t.engine⟩ id = some ⟨(e.grant stepId approvedBy feedback).vars, k + 1, some stepId⟩ := by
      simp only [Entry.activity, if_true, he,
        PlaybookEngine.resumePoint_eq he hwait hstep hpb hk]
    refine h.sets hlog rfl (hengine ▸ PlaybookEngine.sets_modify h.numbered he hid) hact ?_ ?_ ?_
    · exact fun other hne => if_neg (Ne.symm hne)
    · intro e₁ he₁
      rw [Option.some.inj (he₁.symm.trans he)]
      exact hworks.playbookId_eq
    · intro pb' hpb'
      rw [hworks.playbook_unique hpb hpb']
      exact hworks.accounts_resumed hk (h.shape id e pb he hpb) (h.sound id e pb he hpb)

theorem recorded_run {playbooks : List Playbook} {calls : List Call} {s : Session}
    (h : (Session.start playbooks).run F ops calls = .ok s) : Recorded s :=
  runPartial_invariant (fun _ _ _ => Recorded.step) (recorded_start playbooks) h

/-- Every step that only a branch not taken names stays idle if no call of the run reaches it;
with distinct ids, only then. -/
theorem untaken_idle_iff {playbooks : List Playbook} {calls : List Call} {s : Session}
    (hrun : (Session.start playbooks).run F ops calls = .ok s) {id : String}
    {e : PlaybookExecution} {pb : Playbook} (he : s.engine.getExecution id = some e)
    (hpb : s.engine.getPlaybook e.playbookId = some pb) :
    ((∀ x, Untaken F ops pb.steps (s.activities id) x → ¬ Reached pb.steps (s.activities id) x) →
      ∀ x, Untaken F ops pb.steps (s.activities id) x → s.Idle id x) ∧
    ((pb.steps.map (·.id)).Nodup →
      (∀ x, Untaken F ops pb.steps (s.activities id) x → s.Idle id x) →
      ∀ x, Untaken F ops pb.steps (s.activities id) x →
        ¬ Reached pb.steps (s.activities id) x) := by
  have hrec := recorded_run hrun
  have hsame : ∀ entry ∈ s.log, ∀ e₁, entry.after.getExecution id = some e₁ →
      entry.after.getPlaybook e₁.playbookId = some pb := by
    intro entry hentry e₁ he₁
    obtain ⟨e₂, he₂, hid⟩ := hrec.stable entry hentry id e₁ he₁
    obtain rfl : e₂ = e := Option.some.inj (he₂.symm.trans he)
    rw [hrec.registry entry hentry, ← hid]
    exact hpb
  constructor
  · intro hskip x hx entry hentry e₁ he₁ r hr hid
    have hsound := hrec.soundLog entry hentry id e₁ pb he₁ (hsame entry hentry e₁ he₁) r hr
    exact ⟨fun hs => hskip x hx (hid ▸ hsound.2 hs), hsound.1⟩
  · intro hnd hidle x hx hreach
    obtain ⟨a, ha, hway⟩ := hreach
    obtain ⟨entry, hentry, hact⟩ := List.mem_filterMap.mp ha
    obtain ⟨e₁, he₁, hdone⟩ := hrec.complete entry hentry id a hact
    have hstatus := hdone pb (hsame entry hentry e₁ he₁) hnd x ⟨a, List.mem_cons_self, hway⟩
    obtain ⟨r, hr, hs⟩ := Option.map_eq_some_iff.mp hstatus
    have hrid : r.stepId = x := by simpa using List.find?_some hr
    exact (hidle x hx entry hentry e₁ he₁ r (List.mem_of_find?_eq_some hr) hrid).1 hs

/-- Isolation is wanted only when the host is confirmed to be compromised. -/
def confirmPlaybook (behind : List PlaybookStep) : Playbook where
  id := "triage"
  enabled := true
  steps := ⟨"check", .conditional "confirmed" "contain" none, none⟩ :: behind

def containStep : PlaybookStep := ⟨"contain", .contain "isolate_host" [], none⟩

def gateStep : PlaybookStep := ⟨"gate", .approval "secops-lead" "Approve", none⟩

def confirmRun (behind : List PlaybookStep) : Except Abort Session :=
  (Session.start [confirmPlaybook behind]).run Unit asciiText
    [.runPlaybook "triage" none "analyst" [] 1000]

theorem evaluates_confirm {behind : List PlaybookStep} {b : Bool}
    (h : Evaluates Unit asciiText (confirmPlaybook behind).steps [⟨[], 0, none⟩] 0 b) :
    b = false := by
  obtain ⟨a, ha, _, step, condition, thenStep, elseStep, hstep, htype, heval⟩ := h
  have hfalse : evaluateCondition Unit asciiText "confirmed" [] = some false := by decide +kernel
  rw [List.mem_singleton.mp ha] at heval
  cases hstep
  cases htype
  exact Option.some.inj (heval.symm.trans hfalse)

theorem exists_confirmRun (behind : List PlaybookStep) (p : Session → Bool)
    (h : (confirmRun behind).toOption.any p = true) :
      ∃ s, confirmRun behind = .ok s ∧ p s = true := by
  obtain ⟨s, hs, hp⟩ := (Option.any_eq_true _ _).mp h
  refine ⟨s, ?_, hp⟩
  cases hrun : confirmRun behind with
  | error a => simp [hrun, Except.toOption] at hs
  | ok t => simpa [hrun, Except.toOption] using hs

/-- The condition is false and the step that it guards is run. -/
theorem untaken_branch_runs :
    ∃ s, confirmRun [containStep] = .ok s ∧
      Untaken Unit asciiText (confirmPlaybook [containStep]).steps (s.activities "exec-1")
        "contain" ∧ ¬ s.Idle "exec-1" "contain" := by
  obtain ⟨s, hrun, hfacts⟩ := exists_confirmRun [containStep] (fun s =>
    decide (s.activities "exec-1" = [⟨[], 0, none⟩]) && s.log.any fun entry =>
      (entry.after.getExecution "exec-1").any fun e =>
        e.stepResults.any fun r => r.stepId = "contain" ∧ r.status = .succeeded) (by decide +kernel)
  obtain ⟨hacts, hlog⟩ := (Bool.and_eq_true _ _).mp hfacts
  refine ⟨s, hrun, ?_⟩
  rw [of_decide_eq_true hacts]
  refine ⟨⟨0, _, rfl, ⟨true, rfl, ?_⟩, ?_, ?_⟩, fun hidle => ?_⟩
  · exact ⟨_, List.mem_cons_self, ⟨le_rfl, by decide⟩, _, _, _, _, rfl, rfl, by decide +kernel⟩
  · intro b hb
    rw [evaluates_confirm hb]
    decide
  · intro j other hj hother
    obtain rfl : j = 1 := by
      have hlt := (List.getElem?_eq_some_iff.mp hother).1
      simp only [confirmPlaybook, List.length_cons, List.length_nil] at hlt
      omega
    cases hother
    decide
  · obtain ⟨entry, hentry, hexec⟩ := List.any_eq_true.mp hlog
    obtain ⟨e, he, hresults⟩ := (Option.any_eq_true _ _).mp hexec
    obtain ⟨r, hr, hboth⟩ := List.any_eq_true.mp hresults
    obtain ⟨hid, hstatus⟩ := of_decide_eq_true hboth
    exact (hidle entry hentry e he r hr hid).1 hstatus

/-- An approval step between the two keeps the step from running. -/
theorem untaken_idle_iff_gate :
    ∃ s, confirmRun [gateStep, containStep] = .ok s ∧ ∀ x,
      Untaken Unit asciiText (confirmPlaybook [gateStep, containStep]).steps
        (s.activities "exec-1") x → s.Idle "exec-1" x := by
  obtain ⟨s, hrun, hfacts⟩ := exists_confirmRun [gateStep, containStep] (fun s =>
    decide (s.activities "exec-1" = [⟨[], 0, none⟩]) &&
      (s.engine.getExecution "exec-1").any fun e =>
      s.engine.getPlaybook e.playbookId = some (confirmPlaybook [gateStep, containStep]))
    (by decide +kernel)
  obtain ⟨hacts, hexec⟩ := (Bool.and_eq_true _ _).mp hfacts
  obtain ⟨e, he, hpb⟩ := (Option.any_eq_true _ _).mp hexec
  refine ⟨s, hrun, (untaken_idle_iff hrun he (of_decide_eq_true hpb)).1 ?_⟩
  rw [of_decide_eq_true hacts]
  rintro x ⟨i, step, hi, ⟨b, hb, _⟩, _⟩ ⟨a, ha, happ | ⟨j, step', ⟨_, hj⟩, hj', hid⟩⟩
  · rw [List.mem_singleton.mp ha] at happ
    cases happ
  · -- only the first step is reached, and no conditional names it
    have hgate : gateFrom (confirmPlaybook [gateStep, containStep]).steps 0 = 1 := by decide
    have hnames : ∀ s ∈ (confirmPlaybook [gateStep, containStep]).steps,
        s.stepType.target true ≠ some "check" ∧ s.stepType.target false ≠ some "check" := by
      decide
    rw [List.mem_singleton.mp ha] at hj
    obtain rfl : j = 0 := Nat.lt_one_iff.mp (hgate ▸ hj)
    cases hj'
    subst hid
    have hstep := hnames step (List.mem_of_getElem? hi)
    cases b with
    | true => exact hstep.1 hb
    | false => exact hstep.2 hb

end Wardex.Playbooks
