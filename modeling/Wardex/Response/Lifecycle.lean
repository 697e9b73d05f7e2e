import Mathlib.Data.List.Basic
import Mathlib.Data.List.Chain
import Mathlib.Data.List.Nodup
import Wardex.Response.Orchestrator

/-! What may happen to one request, seen by itself: the life it is submitted into, and the
moves it can make from there. -/

namespace Wardex.Response

/-- The moves from one status to the next. -/
inductive Moves : ApprovalStatus → ApprovalStatus → Prop where
  | approved : Moves .pending .approved
  | denied : Moves .pending .denied
  | expired : Moves .pending .expired
  | dryRunCompleted : Moves .pending .dryRunCompleted
  | executed : Moves .approved .executed
  | failed : Moves .approved .failed

def ApprovalStatus.Terminal (s : ApprovalStatus) : Prop := s ≠ .pending ∧ s ≠ .approved

/-- A decision to approve that a pending request accepts. -/
structure Accepts (req : ResponseRequest) (record : ApprovalRecord) : Prop where
  pending : req.status = .pending
  approve : record.decision = .approve
  notRequester : record.approver ≠ req.requestedBy
  fresh : record.approver ∉ req.approvals.map ApprovalRecord.approver

/-- What one call can do to a stored request. -/
inductive Evolves : ResponseRequest → ResponseRequest → List Happening → Prop where
  | counted {req : ResponseRequest} {record : ApprovalRecord} (h : Accepts req record) :
    Evolves req { req with approvals := req.approvals ++ [record] } [.decision record]
  | granted {req : ResponseRequest} {record : ApprovalRecord} (h : Accepts req record)
    (hcount : requiredApprovals req.tier ≤ approveCount (req.approvals ++ [record])) :
    Evolves req
      { req with
        approvals := req.approvals ++ [record]
        status := if req.dryRun then .dryRunCompleted else .approved }
      [.decision record, .status (if req.dryRun then .dryRunCompleted else .approved)]
  | denied {req : ResponseRequest} {record : ApprovalRecord} (hpending : req.status = .pending)
    (hdeny : record.decision = .deny) :
    Evolves req { req with status := .denied, approvals := req.approvals ++ [record] }
      [.decision record, .status .denied]
  | expired {req : ResponseRequest} (hpending : req.status = .pending) :
    Evolves req { req with status := .expired } [.status .expired]
  | enforced {req : ResponseRequest} (happroved : req.status = .approved)
    (hreal : req.dryRun = false) (success : Bool) :
    Evolves req { req with status := outcome success } [.enforcement, .status (outcome success)]

/-- A request with its life so far, from a submission whose approvals satisfy `init`. -/
inductive Story (init : List ApprovalRecord → Prop) :
    ResponseRequest → List Happening → Prop where
  | queued {req : ResponseRequest} (hinit : init req.approvals) (htier : req.tier ≠ .auto)
    (hglass : req.tier = .breakGlass → req.dryRun = true) (hstatus : req.status = .pending) :
    Story init req [.status .pending]
  | simulated {req : ResponseRequest} (hinit : init req.approvals) (htier : req.tier = .auto)
    (hdry : req.dryRun = true) (hstatus : req.status = .dryRunCompleted) :
    Story init req [.status .dryRunCompleted]
  | automatic {req : ResponseRequest} (hinit : init req.approvals) (htier : req.tier = .auto)
    (hreal : req.dryRun = false) (success : Bool) (hstatus : req.status = outcome success) :
    Story init req [.enforcement, .status (outcome success)]
  | step {req req' : ResponseRequest} {life events : List Happening} (h : Story init req life)
    (hevolves : Evolves req req' events) : Story init req' (life ++ events)

/-! ## Parts of a life -/

def statuses (life : List Happening) : List ApprovalStatus :=
  life.filterMap fun
    | .status s => some s
    | _ => none

def decisions (life : List Happening) : List ApprovalRecord :=
  life.filterMap fun
    | .decision record => some record
    | _ => none

@[simp] theorem statuses_append (life events : List Happening) :
    statuses (life ++ events) = statuses life ++ statuses events := List.filterMap_append ..

@[simp] theorem decisions_append (life events : List Happening) :
    decisions (life ++ events) = decisions life ++ decisions events := List.filterMap_append ..

theorem outcome_terminal (success : Bool) : (outcome success).Terminal := by
  cases success <;> simp [outcome, ApprovalStatus.Terminal]

/-! ## Statuses -/

variable {init : List ApprovalRecord → Prop} {req req' : ResponseRequest}
  {life events : List Happening}

/-- The new statuses of a step continue the old one. -/
theorem Evolves.statuses (h : Evolves req req' events) :
    (Response.statuses events = [] ∧ req'.status = req.status) ∨
      (Response.statuses events = [req'.status] ∧ Moves req.status req'.status) := by
  cases h with
  | counted => exact Or.inl ⟨rfl, rfl⟩
  | granted h hcount =>
    refine Or.inr ⟨rfl, ?_⟩
    rw [h.pending]
    dsimp only
    split
    · exact .dryRunCompleted
    · exact .approved
  | denied hpending =>
    rw [hpending]
    exact Or.inr ⟨rfl, .denied⟩
  | expired hpending =>
    rw [hpending]
    exact Or.inr ⟨rfl, .expired⟩
  | enforced happroved hreal success =>
    rw [happroved]
    cases success
    · exact Or.inr ⟨rfl, .failed⟩
    · exact Or.inr ⟨rfl, .executed⟩

theorem Story.getLast?_statuses (h : Story init req life) :
    (statuses life).getLast? = some req.status := by
  induction h with
  | queued _ _ _ hstatus => rw [hstatus]; rfl
  | simulated _ _ _ hstatus => rw [hstatus]; rfl
  | automatic _ _ _ success hstatus => rw [hstatus]; rfl
  | step h hevolves ih =>
    rw [statuses_append, List.getLast?_append]
    rcases hevolves.statuses with ⟨hnone, hsame⟩ | ⟨hone, -⟩
    · rw [hnone, hsame]
      exact ih
    · rw [hone]
      rfl

theorem Story.isChain_statuses (h : Story init req life) : (statuses life).IsChain Moves := by
  induction h with
  | queued => exact List.IsChain.singleton _
  | simulated => exact List.IsChain.singleton _
  | automatic => exact List.IsChain.singleton _
  | step h hevolves ih =>
    rw [statuses_append]
    rcases hevolves.statuses with ⟨hnone, -⟩ | ⟨hone, hmoves⟩
    · rwa [hnone, List.append_nil]
    · rw [hone, List.isChain_append]
      refine ⟨ih, List.IsChain.singleton _, fun s hs t ht => ?_⟩
      rw [h.getLast?_statuses] at hs
      obtain rfl := Option.some.inj hs
      obtain rfl := Option.some.inj ht
      exact hmoves

theorem Evolves.tier (h : Evolves req req' events) : req'.tier = req.tier := by
  cases h <;> rfl

theorem Evolves.dryRun (h : Evolves req req' events) : req'.dryRun = req.dryRun := by
  cases h <;> rfl

theorem Evolves.requestedBy (h : Evolves req req' events) :
    req'.requestedBy = req.requestedBy := by
  cases h <;> rfl

/-- Whatever is not handled automatically starts out pending. -/
theorem Story.head?_statuses (h : Story init req life) (htier : req.tier ≠ .auto) :
    (statuses life).head? = some .pending := by
  induction h with
  | queued => rfl
  | simulated _ hauto => exact absurd hauto htier
  | automatic _ hauto => exact absurd hauto htier
  | step h hevolves ih =>
    rw [statuses_append, List.head?_append, ih (hevolves.tier ▸ htier)]
    rfl

/-! ## Enforcement -/

theorem Evolves.not_terminal (h : Evolves req req' events) : ¬req.status.Terminal := by
  cases h with
  | counted haccepts => exact fun hterminal => hterminal.1 haccepts.pending
  | granted haccepts => exact fun hterminal => hterminal.1 haccepts.pending
  | denied hpending => exact fun hterminal => hterminal.1 hpending
  | expired hpending => exact fun hterminal => hterminal.1 hpending
  | enforced happroved => exact fun hterminal => hterminal.2 happroved

/-- While a request can still move, nothing has been enforced. -/
theorem Story.enforcement_notMem (h : Story init req life) (hlive : ¬req.status.Terminal) :
    .enforcement ∉ life := by
  induction h with
  | queued => simp
  | simulated => simp
  | automatic _ _ _ success hstatus =>
    exact absurd (hstatus ▸ outcome_terminal success) hlive
  | step h hevolves ih =>
    have hold := ih hevolves.not_terminal
    cases hevolves with
    | enforced _ _ success => exact absurd (outcome_terminal success) hlive
    | _ => simpa using hold

theorem Evolves.count_enforcement (h : Evolves req req' events) :
    events.count .enforcement ≤ 1 := by
  cases h <;> simp

theorem Story.count_enforcement (h : Story init req life) : life.count .enforcement ≤ 1 := by
  induction h with
  | queued => simp
  | simulated => simp
  | automatic => simp
  | step h hevolves ih =>
    rw [List.count_append,
      List.count_eq_zero_of_not_mem (h.enforcement_notMem hevolves.not_terminal), Nat.zero_add]
    exact hevolves.count_enforcement

theorem Story.enforcement_notMem_of_dryRun (h : Story init req life) (hdry : req.dryRun = true) :
    .enforcement ∉ life := by
  induction h with
  | queued => simp
  | simulated => simp
  | automatic _ _ hreal => exact absurd (hdry.symm.trans hreal) (by simp)
  | step h hevolves ih =>
    have hold := ih (hevolves.dryRun ▸ hdry)
    cases hevolves with
    | enforced _ hreal => exact absurd (hdry.symm.trans hreal) (by simp)
    | _ => simpa using hold

/-! ## Approval -/

theorem Story.dryRun_of_breakGlass (h : Story init req life) (hglass : req.tier = .breakGlass) :
    req.dryRun = true := by
  induction h with
  | queued _ _ hdry => exact hdry hglass
  | simulated _ _ hdry => exact hdry
  | automatic _ hauto => exact absurd (hauto.symm.trans hglass) (by simp)
  | step h hevolves ih => exact hevolves.dryRun ▸ ih (hevolves.tier ▸ hglass)

/-- An approved request is a real one, and it has its approvals. -/
theorem Story.approved (h : Story init req life) (hstatus : req.status = .approved) :
    req.dryRun = false ∧ requiredApprovals req.tier ≤ approveCount req.approvals := by
  cases h with
  | queued _ _ _ hpending => exact absurd (hpending.symm.trans hstatus) (by simp)
  | simulated _ _ _ hdone => exact absurd (hdone.symm.trans hstatus) (by simp)
  | automatic _ _ _ success hdone =>
    exact absurd (hdone.symm.trans hstatus) fun he => (outcome_terminal success).2 he
  | step h hevolves =>
    cases hevolves with
    | counted haccepts => exact absurd (haccepts.pending.symm.trans hstatus) (by simp)
    | granted haccepts hcount =>
      dsimp only at hstatus ⊢
      split at hstatus
      · simp at hstatus
      · next hreal => exact ⟨by simpa using hreal, hcount⟩
    | denied => simp at hstatus
    | expired => simp at hstatus
    | enforced _ _ success => exact absurd hstatus (outcome_terminal success).2

/-- The decisions on a request that can still move. -/
structure Vetted (req : ResponseRequest) (life : List Happening) : Prop where
  decisions : decisions life = req.approvals
  approve : ∀ a ∈ req.approvals, a.decision = .approve
  notRequester : ∀ a ∈ req.approvals, a.approver ≠ req.requestedBy
  distinct : (req.approvals.map ApprovalRecord.approver).Nodup
  notExpired : .status .expired ∉ life

theorem Vetted.accept {record : ApprovalRecord} (h : Vetted req life)
    (haccepts : Accepts req record) {s : ApprovalStatus} {events : List Happening}
    (hdecisions : Response.decisions events = [record]) (hexpired : .status .expired ∉ events) :
    Vetted { req with approvals := req.approvals ++ [record], status := s } (life ++ events) where
  decisions := by rw [decisions_append, h.decisions, hdecisions]
  approve := by
    intro a ha
    rcases List.mem_append.mp ha with hold | hnew
    · exact h.approve a hold
    · rw [List.mem_singleton.mp hnew]
      exact haccepts.approve
  notRequester := by
    intro a ha
    rcases List.mem_append.mp ha with hold | hnew
    · exact h.notRequester a hold
    · rw [List.mem_singleton.mp hnew]
      exact haccepts.notRequester
  distinct := by
    rw [List.map_append, List.map_singleton, List.nodup_append']
    exact ⟨h.distinct, List.nodup_singleton _, List.disjoint_singleton.mpr haccepts.fresh⟩
  notExpired := by
    rw [List.mem_append]
    exact not_or.mpr ⟨h.notExpired, hexpired⟩

theorem Story.vetted (h : Story (fun approvals => approvals = []) req life)
    (hlive : ¬req.status.Terminal) : Vetted req life := by
  induction h with
  | queued hinit => constructor <;> simp [hinit, Response.decisions]
  | simulated _ _ _ hstatus => exact absurd (by simp [hstatus, ApprovalStatus.Terminal]) hlive
  | automatic _ _ _ success hstatus => exact absurd (hstatus ▸ outcome_terminal success) hlive
  | @step req _ life _ h hevolves ih =>
    have hold := ih hevolves.not_terminal
    cases hevolves with
    | counted haccepts => exact hold.accept haccepts (s := req.status) rfl (by simp)
    | granted haccepts => exact hold.accept haccepts rfl (by split <;> simp)
    | denied => exact absurd (by simp [ApprovalStatus.Terminal]) hlive
    | expired => exact absurd (by simp [ApprovalStatus.Terminal]) hlive
    | enforced _ _ success => exact absurd (outcome_terminal success) hlive

/-- What entitles a request to be enforced, told from its life before. -/
structure Authorized (req : ResponseRequest) (before : List Happening) : Prop where
  notBreakGlass : req.tier ≠ .breakGlass
  single : req.tier = .singleApproval → 1 ≤ (decisions before).length
  dual : req.tier = .dualApproval → 2 ≤ (decisions before).length
  approve : ∀ a ∈ decisions before, a.decision = .approve
  distinct : ((decisions before).map ApprovalRecord.approver).Nodup
  notRequester : ∀ a ∈ decisions before, a.approver ≠ req.requestedBy
  notExpired : .status .expired ∉ before

theorem Story.authorized_of_approved (h : Story (fun approvals => approvals = []) req life)
    (hstatus : req.status = .approved) : Authorized req life := by
  have hvetted := h.vetted fun hterminal => hterminal.2 hstatus
  obtain ⟨hreal, hcount⟩ := h.approved hstatus
  have hlength : requiredApprovals req.tier ≤ (Response.decisions life).length := by
    rw [hvetted.decisions]
    exact hcount.trans (List.length_filter_le ..)
  refine ⟨fun hglass => ?_, fun hsingle => ?_, fun hdual => ?_, ?_, ?_, ?_, hvetted.notExpired⟩
  · exact absurd (hreal.symm.trans (h.dryRun_of_breakGlass hglass)) (by simp)
  · rwa [hsingle] at hlength
  · rwa [hdual] at hlength
  all_goals rw [hvetted.decisions]
  · exact hvetted.approve
  · exact hvetted.distinct
  · exact hvetted.notRequester

theorem Evolves.enforced_of_mem (h : Evolves req req' events) (hmem : .enforcement ∈ events) :
    req.status = .approved ∧ ∃ s, events = [.enforcement, .status s] := by
  cases h with
  | enforced happroved => exact ⟨happroved, _, rfl⟩
  | granted => split at hmem <;> simp at hmem
  | _ => simp at hmem

theorem Authorized.of_eq {req req' : ResponseRequest} {before : List Happening}
    (h : Authorized req before) (htier : req'.tier = req.tier)
    (hrequester : req'.requestedBy = req.requestedBy) : Authorized req' before where
  notBreakGlass := htier ▸ h.notBreakGlass
  single := htier ▸ h.single
  dual := htier ▸ h.dual
  approve := h.approve
  distinct := h.distinct
  notRequester := hrequester ▸ h.notRequester
  notExpired := h.notExpired

/-- Wherever a request that is not handled automatically is enforced, it is authorized. -/
theorem Story.authorized (h : Story (fun approvals => approvals = []) req life)
    (htier : req.tier ≠ .auto) {before later : List Happening}
    (hlife : life = before ++ .enforcement :: later) : Authorized req before := by
  induction h generalizing later with
  | queued =>
    have hmem : Happening.enforcement ∈ [.status .pending] :=
      hlife.symm ▸ List.mem_append_cons_self
    simp at hmem
  | simulated =>
    have hmem : Happening.enforcement ∈ [.status .dryRunCompleted] :=
      hlife.symm ▸ List.mem_append_cons_self
    simp at hmem
  | automatic _ hauto => exact absurd hauto htier
  | @step req req' life events h hevolves ih =>
    rw [hevolves.tier] at htier
    suffices hauthorized : Authorized req before from
      hauthorized.of_eq hevolves.tier hevolves.requestedBy
    -- the enforcement is one of the new events, or lies in the old life
    rcases List.append_eq_append_iff.mp hlife with ⟨added, rfl, hevents⟩ | ⟨rest, hold, hrest⟩
    · obtain ⟨hstatus, s, rfl⟩ := hevolves.enforced_of_mem (hevents ▸ List.mem_append_cons_self)
      obtain rfl : added = [] := by
        cases added with
        | nil => rfl
        | cons x added => simp [List.cons_eq_append_iff] at hevents
      rw [List.append_nil]
      exact h.authorized_of_approved hstatus
    · cases rest with
      | nil =>
        rw [List.nil_append] at hrest
        obtain ⟨hstatus, -⟩ := hevolves.enforced_of_mem (hrest ▸ List.mem_cons_self ..)
        rw [List.append_nil] at hold
        exact hold ▸ h.authorized_of_approved hstatus
      | cons x rest =>
        obtain ⟨rfl, -⟩ := List.cons.inj hrest
        exact ih htier hold

end Wardex.Response
