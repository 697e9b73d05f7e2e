import Wardex.Lib.KeyMap
import Wardex.Lib.Run
import Wardex.Remediation.Review

/-! The gate before a rollback.  Approvals settle the status of a review, but a payload brings a
status of its own, which stands until the first decision: a rollback is authorized exactly if
somebody has decided on its review. -/

namespace Wardex.Remediation

open Wardex.Lib Wardex.Audit Wardex.Enrollment Wardex.PlaybookDsl

variable {F : Type}

/-! ## Calls -/

inductive ReviewCall (F : Type) where
  | record (payload : Value F) (actor : String) (now : Int) (fault : Option String)
  | approve (reviewId : String) (payload : Value F) (actor : String) (now : Int)
      (fault : Option String)
  | execute (host : RemediationHost) (request : ExecuteReviewRollbackRequest F) (now : Int)
      (fault : Option String)

/-- How a call ends: with a review, with an error of its own, or with one of the storage. -/
inductive ReviewOutcome (F : Type) where
  | ok (review : RemediationChangeReview F)
  | refused
  | storageFailed

def RecordRemediationChangeReviewError.outcome : RecordRemediationChangeReviewError →
    ReviewOutcome F
  | .invalid _ => .refused
  | .storage _ => .storageFailed

def RemediationChangeReviewStoreError.outcome : RemediationChangeReviewStoreError → ReviewOutcome F
  | .storage _ => .storageFailed
  | _ => .refused

def ExecuteReviewRollbackError.outcome : ExecuteReviewRollbackError → ReviewOutcome F
  | .storage _ => .storageFailed
  | _ => .refused

/-- What was decided on a review since it was recorded with its evidence: who decided what, the
oldest decision first. -/
structure Proceedings (F : Type) where
  evidence : Value F
  decisions : List (String × String)

structure ReviewWorld (F : Type) where
  store : ReviewStore F
  engine : RemediationEngine
  proceedings : String → Option (Proceedings F)

namespace ReviewWorld

def start (engine : RemediationEngine) : ReviewWorld F := ⟨none, engine, fun _ => none⟩

/-- The proceedings begin anew when a review is recorded, with the decisions it comes with. -/
def opened (w : ReviewWorld F) (review : RemediationChangeReview F) (payload : Value F)
    (actor : String) : String → Option (Proceedings F) :=
  Function.update w.proceedings review.id (some ⟨review.evidence,
    (payloadApprovals payload).map fun approval => (actor, submittedDecision approval)⟩)

def decided (w : ReviewWorld F) (reviewId actor decision : String) :
    String → Option (Proceedings F) :=
  Function.update w.proceedings reviewId ((w.proceedings reviewId).map fun p =>
    { p with decisions := p.decisions ++ [(actor, decision)] })

variable (env : ReviewEnv F)

def perform (w : ReviewWorld F) : ReviewCall F → ReviewWorld F × ReviewOutcome F
  | .record payload actor now fault =>
    match recordRemediationChangeReview env w.store fault payload actor now with
    | (store, .ok review) =>
      ({ w with store := store, proceedings := w.opened review payload actor }, .ok review)
    | (store, .error e) => ({ w with store := store }, e.outcome)
  | .approve reviewId payload actor now fault =>
    match approveRemediationChangeReview env w.store fault reviewId payload actor now with
    | (store, .ok review) =>
      ({ w with
        store := store
        proceedings := w.decided reviewId actor (submittedDecision payload) }, .ok review)
    | (store, .error e) => ({ w with store := store }, e.outcome)
  | .execute host request now fault =>
    match executeAndRecordReviewRollback env host w.store w.engine fault request now with
    | ((store, engine), .ok review) => ({ w with store := store, engine := engine }, .ok review)
    | ((store, engine), .error e) => ({ w with store := store, engine := engine }, e.outcome)

def after (w : ReviewWorld F) (c : ReviewCall F) : ReviewWorld F := (w.perform env c).1

/-! ## What a rollback needs -/

/-- Enough actors hold to an approval, nobody holds to a denial, and a risky review needs two. -/
structure Authorized (p : Proceedings F) (review : RemediationChangeReview F) : Prop where
  evidence : p.evidence = review.evidence
  approved : ∃ actors : List String, actors.Nodup ∧ review.requiredApprovers ≤ actors.length ∧
    ∀ actor ∈ actors, latest p.decisions actor = some "approve"
  undenied : ∀ actor, latest p.decisions actor ≠ some "deny"
  risky : toAsciiLowercase (trimText review.risk) ∈ ["high", "critical"] →
    2 ≤ review.requiredApprovers

/-- A rollback that succeeds is authorized, and a refused call changes nothing. -/
structure Gated (w : ReviewWorld F) (c : ReviewCall F) : Prop where
  authorized : ∀ host request now fault, c = .execute host request now fault →
    ∀ review, (w.perform env c).2 = .ok review →
      ∃ p, w.proceedings review.id = some p ∧ Authorized p review
  unchanged : (w.perform env c).2 = .refused →
    (w.perform env c).1.store = w.store ∧ (w.perform env c).1.engine = w.engine

/-- A rollback that nothing else stops is of a review on which somebody has decided. -/
def Decided (w : ReviewWorld F) : ReviewCall F → Prop
  | .execute _ request _ fault =>
    ∀ review, (loadRemediationChangeReviews w.store).find? (fun r => r.id = request.reviewId) =
      some review → request.permit review = .ok () →
        (∃ action, rollbackActionFromEvidence review.evidence = .ok action) → fault = none →
          review.approvalStatus = "approved" → review.approvals ≠ []
  | _ => True

end ReviewWorld

/-! ## Decisions -/

def HighRisk (risk : String) : Prop := toAsciiLowercase (trimText risk) ∈ ["high", "critical"]

namespace RemediationChangeReview

/-- The decisions a review holds, one for each actor. -/
def held (review : RemediationChangeReview F) : List (String × String) :=
  review.approvals.map fun a => (a.approver, a.decision)

/-- What a decision leaves of a review. -/
structure DecidedBy (review review' : RemediationChangeReview F) (actor decision : String) :
    Prop where
  id : review'.id = review.id
  evidence : review'.evidence = review.evidence
  risk : review'.risk = review.risk
  requiredApprovers : review'.requiredApprovers = review.requiredApprovers
  held : review'.held = supersede review.held (actor, decision)
  settled : review'.approvalStatus = settledStatus review'

end RemediationChangeReview

open RemediationChangeReview

variable {env : ReviewEnv F} {review review' : RemediationChangeReview F} {payload : Value F}
  {actor : String} {now : Int}

theorem held_withApproval (env : ReviewEnv F) (review : RemediationChangeReview F)
    (approval : RemediationReviewApproval) :
    (withApproval env review approval).held =
      supersede review.held (approval.approver, approval.decision) := by
  rw [held, withApproval, List.map_append, supersede, held, List.filter_map]
  rfl

theorem decidedBy_of_applyRemediationReviewApproval
    (h : applyRemediationReviewApproval env review payload actor now = .ok review') :
    review.DecidedBy review' actor (submittedDecision payload) := by
  simp only [applyRemediationReviewApproval, bind_eq_ok, ensure_eq_ok] at h
  obtain ⟨⟨⟩, -, ⟨⟩, -, h⟩ := h
  split_ifs at h
  · obtain rfl := pure_eq_ok.mp h
    exact ⟨rfl, rfl, rfl, rfl, held_withApproval env review _, rfl⟩
  · obtain rfl := pure_eq_ok.mp h
    exact ⟨rfl, rfl, rfl, rfl, held_withApproval env review _, rfl⟩

/-! ## What the proceedings say about a stored review -/

/-- The review holds the latest decision of each actor, and once there is one its status is what
they amount to. -/
structure Tracked (p : Proceedings F) (review : RemediationChangeReview F) : Prop where
  evidence : p.evidence = review.evidence
  required : 1 ≤ review.requiredApprovers
  risky : HighRisk review.risk → 2 ≤ review.requiredApprovers
  held : review.held = current p.decisions
  settled : review.held ≠ [] → review.approvalStatus = settledStatus review

theorem Tracked.decide {p : Proceedings F} {decision : String} (h : Tracked p review)
    (hd : review.DecidedBy review' actor decision) :
    Tracked { p with decisions := p.decisions ++ [(actor, decision)] } review' := by
  refine ⟨h.evidence.trans hd.evidence.symm, ?_, ?_, ?_, fun _ => hd.settled⟩
  · rw [hd.requiredApprovers]
    exact h.required
  · rw [hd.requiredApprovers, hd.risk]
    exact h.risky
  · rw [hd.held, h.held, current_concat]

theorem Tracked.decideAll {p : Proceedings F} {payloads : List (Value F)} (h : Tracked p review)
    (hd : payloads.foldlM (fun review payload =>
      applyRemediationReviewApproval env review payload actor now) review = .ok review') :
    review'.id = review.id ∧ Tracked { p with
      decisions := p.decisions ++ payloads.map fun payload => (actor, submittedDecision payload) }
      review' := by
  induction payloads generalizing p review with
  | nil =>
    obtain rfl := pure_eq_ok.mp hd
    exact ⟨rfl, by simpa using h⟩
  | cons payload payloads ih =>
    rw [List.foldlM_cons, bind_eq_ok] at hd
    obtain ⟨next, hnext, hd⟩ := hd
    have hdecided := decidedBy_of_applyRemediationReviewApproval hnext
    obtain ⟨hid, htracked⟩ := ih (h.decide hdecided) hd
    exact ⟨hid.trans hdecided.id, by simpa using htracked⟩

theorem one_le_remediationRequiredApprovers (risk : String) (requested : Option Nat) :
    1 ≤ remediationRequiredApprovers risk requested := by
  unfold remediationRequiredApprovers
  dsimp only
  split_ifs <;> omega

theorem two_le_remediationRequiredApprovers {risk : String} (h : HighRisk risk)
    (requested : Option Nat) : 2 ≤ remediationRequiredApprovers risk requested := by
  have hlevel : toAsciiLowercase (trimText risk) = "critical" ∨
      toAsciiLowercase (trimText risk) = "high" := by
    simpa [HighRisk, or_comm] using h
  unfold remediationRequiredApprovers
  dsimp only
  rw [if_pos hlevel]
  omega

theorem tracked_draftReview (payload : Value F) (actor : String) (now : Int) :
    Tracked ⟨(draftReview env payload actor now).evidence, []⟩
      (draftReview env payload actor now) := by
  unfold draftReview withSummary
  dsimp only
  split_ifs
  all_goals
    refine ⟨rfl, one_le_remediationRequiredApprovers _ _, fun h => ?_, rfl, fun h => (h rfl).elim⟩
    exact two_le_remediationRequiredApprovers h _

theorem tracked_of_remediationReviewFromPayload
    (h : remediationReviewFromPayload env payload actor now = .ok review) :
    Tracked ⟨review.evidence, (payloadApprovals payload).map fun approval =>
      (actor, submittedDecision approval)⟩ review := by
  simp only [remediationReviewFromPayload, bind_eq_ok, ensure_eq_ok] at h
  obtain ⟨⟨⟩, -, h⟩ := h
  obtain ⟨-, htracked⟩ := (tracked_draftReview payload actor now).decideAll h
  have hevidence := htracked.evidence
  rw [List.nil_append] at htracked
  rw [← hevidence]
  exact htracked

/-- Recording the outcome of a rollback decides nothing. -/
theorem Tracked.executed {p : Proceedings F} (h : Tracked p review)
    (request : ExecuteReviewRollbackRequest F) (outcome : ReviewRollbackOutcome) (now : Int) :
    Tracked p (executedReview env review request outcome now) :=
  ⟨h.evidence, h.required, h.risky, h.held, h.settled⟩

/-! ## An approved review -/

theorem Tracked.latest_iff {p : Proceedings F} {decision : String} (h : Tracked p review) :
    latest p.decisions actor = some decision ↔ (actor, decision) ∈ review.held := by
  rw [h.held, mem_current]

theorem Tracked.settledStatus_eq {p : Proceedings F} (h : Tracked p review)
    (hstatus : review.approvalStatus = "approved") (hdecided : review.approvals ≠ []) :
    (∀ d ∈ review.held, d.2 ≠ "deny") ∧
      review.requiredApprovers ≤ review.held.countP fun d => d.2 = "approve" := by
  have hheld : review.held ≠ [] := fun hnil => hdecided (List.map_eq_nil_iff.mp hnil)
  have hsettled := (h.settled hheld).symm.trans hstatus
  unfold settledStatus at hsettled
  split_ifs at hsettled with hdeny hcount
  · exact absurd hsettled (by decide)
  · refine ⟨fun d hd hd2 => hdeny ?_, ?_⟩
    · obtain ⟨a, ha, rfl⟩ := List.mem_map.mp hd
      exact List.any_eq_true.mpr ⟨a, ha, decide_eq_true hd2⟩
    · rw [RemediationChangeReview.held, List.countP_map]
      exact hcount
  · exact absurd hsettled (by decide)

/-- The status of a review on which somebody has decided is worth what it says. -/
theorem Tracked.authorized {p : Proceedings F} (h : Tracked p review)
    (hstatus : review.approvalStatus = "approved") (hdecided : review.approvals ≠ []) :
    ReviewWorld.Authorized p review := by
  obtain ⟨hdeny, hcount⟩ := h.settledStatus_eq hstatus hdecided
  have hnodup : (review.held.map Prod.fst).Nodup := by
    rw [h.held]
    exact nodup_keys_current
  refine ⟨h.evidence, ⟨(review.held.filter fun d => d.2 = "approve").map Prod.fst, ?_, ?_, ?_⟩, ?_,
    h.risky⟩
  · exact hnodup.sublist (List.filter_sublist.map _)
  · rw [List.length_map, ← List.countP_eq_length_filter]
    exact hcount
  · intro actor hactor
    obtain ⟨⟨actor', decision⟩, hd, rfl⟩ := List.mem_map.mp hactor
    obtain ⟨hmem, happrove⟩ := List.mem_filter.mp hd
    obtain rfl := of_decide_eq_true happrove
    exact h.latest_iff.mpr hmem
  · intro actor hlatest
    exact hdeny _ (h.latest_iff.mp hlatest) rfl

/-- An authorized review has been decided on. -/
theorem Tracked.approvals_ne_nil {p : Proceedings F} (h : Tracked p review)
    (ha : ReviewWorld.Authorized p review) : review.approvals ≠ [] := by
  intro hnil
  obtain ⟨actors, -, hlength, happroved⟩ := ha.approved
  obtain ⟨actor, hactor⟩ := List.exists_mem_of_length_pos (h.required.trans hlength)
  have hmem := h.latest_iff.mp (happroved actor hactor)
  rw [RemediationChangeReview.held, hnil] at hmem
  exact List.not_mem_nil hmem

/-! ## The stored reviews -/

/-- The reviews have distinct ids, and each is tracked. -/
structure AllTracked (proceedings : String → Option (Proceedings F))
    (reviews : List (RemediationChangeReview F)) : Prop where
  nodup : (reviews.map RemediationChangeReview.id).Nodup
  tracked : ∀ review ∈ reviews, ∃ p, proceedings review.id = some p ∧ Tracked p review

theorem normalizeRemediationChangeReviews_subperm (reviews : List (RemediationChangeReview F)) :
    (normalizeRemediationChangeReviews reviews).Subperm reviews :=
  (List.drop_sublist _ _).subperm.trans (List.perm_insertionSort _ _).subperm

variable {proceedings : String → Option (Proceedings F)}
  {reviews : List (RemediationChangeReview F)}

theorem AllTracked.normalize (h : AllTracked proceedings reviews) :
    AllTracked proceedings (normalizeRemediationChangeReviews reviews) := by
  have hsub := normalizeRemediationChangeReviews_subperm reviews
  refine ⟨?_, fun review hmem => h.tracked review (hsub.subset hmem)⟩
  obtain ⟨kept, hperm, hkept⟩ := hsub
  exact (hperm.map _).nodup_iff.mp (h.nodup.sublist (hkept.map _))

/-- One review takes the place of the one with its id, and its proceedings with it. -/
theorem AllTracked.replace {p : Proceedings F} (h : AllTracked proceedings reviews)
    (hp : Tracked p review) :
    AllTracked (Function.update proceedings review.id (some p))
      (normalizeRemediationChangeReviews
        (reviews.filter (fun entry => entry.id ≠ review.id) ++ [review])) := by
  refine AllTracked.normalize ⟨?_, fun entry hentry => ?_⟩
  · rw [List.map_append, List.nodup_append]
    refine ⟨h.nodup.sublist (List.filter_sublist.map _), List.nodup_singleton _, ?_⟩
    intro id hid id' hid' heq
    obtain ⟨entry, hentry, rfl⟩ := List.mem_map.mp hid
    obtain rfl := List.mem_singleton.mp hid'
    exact of_decide_eq_true (List.mem_filter.mp hentry).2 heq
  · rcases List.mem_append.mp hentry with hold | hnew
    · obtain ⟨hold, hne⟩ := List.mem_filter.mp hold
      rw [Function.update_of_ne (of_decide_eq_true hne)]
      exact h.tracked entry hold
    · obtain rfl := List.mem_singleton.mp hnew
      exact ⟨p, Function.update_self _ _ _, hp⟩

/-- Under distinct ids, removing the first entry with an id removes all of them. -/
theorem eraseP_id_eq_filter (h : (reviews.map RemediationChangeReview.id).Nodup) (id : String) :
    reviews.eraseP (fun entry => entry.id = id) = reviews.filter fun entry => entry.id ≠ id := by
  induction reviews with
  | nil => rfl
  | cons review reviews ih =>
    rw [List.map_cons, List.nodup_cons] at h
    by_cases hid : review.id = id
    · rw [List.eraseP_cons, decide_eq_true hid, cond_true, List.filter_cons_of_neg (by simp [hid])]
      refine (List.filter_eq_self.mpr fun entry hentry => ?_).symm
      refine decide_eq_true fun heq => h.1 ?_
      rw [hid, ← heq]
      exact List.mem_map_of_mem hentry
    · rw [List.eraseP_cons, decide_eq_false hid, cond_false,
        List.filter_cons_of_pos (by simpa using hid), ih h.2]

/-! ## One call -/

/-- The stored reviews with one put in the place of the one with its id. -/
def replaced (store : ReviewStore F) (review : RemediationChangeReview F) : ReviewStore F :=
  some (normalizeRemediationChangeReviews
    ((loadRemediationChangeReviews store).filter (fun entry => entry.id ≠ review.id) ++ [review]))

variable (env) in
theorem recordRemediationChangeReview_cases (store : ReviewStore F) (fault : Option String)
    (payload : Value F) (actor : String) (now : Int) :
    (∃ e, recordRemediationChangeReview env store fault payload actor now =
        (store, .error (.invalid e))) ∨
      (∃ e, recordRemediationChangeReview env store fault payload actor now =
        (store, .error (.storage e))) ∨
      ∃ review, remediationReviewFromPayload env payload actor now = .ok review ∧
        recordRemediationChangeReview env store fault payload actor now =
          (replaced store review, .ok review) := by
  unfold recordRemediationChangeReview
  cases remediationReviewFromPayload env payload actor now with
  | error e => exact .inl ⟨e, rfl⟩
  | ok review =>
    cases fault with
    | some e => exact .inr (.inl ⟨e, rfl⟩)
    | none => exact .inr (.inr ⟨review, rfl, rfl⟩)

variable (env) in
theorem approveRemediationChangeReview_cases {store : ReviewStore F}
    (hnodup : ((loadRemediationChangeReviews store).map RemediationChangeReview.id).Nodup)
    (fault : Option String) (reviewId : String) (payload : Value F) (actor : String) (now : Int) :
    (∃ e : RemediationChangeReviewStoreError, (∀ m, e ≠ .storage m) ∧
        approveRemediationChangeReview env store fault reviewId payload actor now =
          (store, .error e)) ∨
      (∃ e, approveRemediationChangeReview env store fault reviewId payload actor now =
        (store, .error (.storage e))) ∨
      ∃ review ∈ loadRemediationChangeReviews store, review.id = reviewId ∧ ∃ review',
        applyRemediationReviewApproval env review payload actor now = .ok review' ∧
          approveRemediationChangeReview env store fault reviewId payload actor now =
            (replaced store review', .ok review') := by
  unfold approveRemediationChangeReview updateRemediationChangeReview
  dsimp only
  cases hfind : (loadRemediationChangeReviews store).find? (fun r => r.id = reviewId) with
  | none => exact .inl ⟨.notFound, nofun, rfl⟩
  | some review =>
    have hid : review.id = reviewId := by simpa using List.find?_some hfind
    dsimp only
    cases hreview : applyRemediationReviewApproval env review payload actor now with
    | error e => exact .inl ⟨.invalid e, nofun, rfl⟩
    | ok review' =>
      cases fault with
      | some e => exact .inr (.inl ⟨e, rfl⟩)
      | none =>
        have hid' := (decidedBy_of_applyRemediationReviewApproval hreview).id
        refine .inr (.inr ⟨review, List.mem_of_find?_eq_some hfind, hid, review', hreview, ?_⟩)
        rw [eraseP_id_eq_filter hnodup, ← hid, ← hid']
        rfl

theorem permit_ne_storage (request : ExecuteReviewRollbackRequest F)
    (review : RemediationChangeReview F) (m : String) :
    request.permit review ≠ .error (.storage m) := by
  unfold ExecuteReviewRollbackRequest.permit
  dsimp only
  split_ifs <;> nofun

variable (env) in
theorem executeAndRecordReviewRollback_of_approved {store : ReviewStore F}
    (hnodup : ((loadRemediationChangeReviews store).map RemediationChangeReview.id).Nodup)
    (host : RemediationHost) (engine : RemediationEngine)
    {request : ExecuteReviewRollbackRequest F} (now : Int)
    (hfind : (loadRemediationChangeReviews store).find? (fun r => r.id = request.reviewId) =
      some review) (hpermit : request.permit review = .ok ())
    (hstatus : review.approvalStatus = "approved")
    (haction : ∃ action, rollbackActionFromEvidence review.evidence = .ok action) :
    ∃ engine' outcome, executeAndRecordReviewRollback env host store engine none request now =
      ((replaced store (executedReview env review request outcome now), engine'),
        .ok (executedReview env review request outcome now)) := by
  have hid : review.id = request.reviewId := by simpa using List.find?_some hfind
  unfold executeAndRecordReviewRollback
  dsimp only
  rw [hfind]
  dsimp only
  rw [hpermit]
  dsimp only
  rw [if_neg (not_not_intro hstatus)]
  cases hrollback : executeReviewRollback host engine (request.rollbackRequest review) with
  | mk engine' result =>
    cases result with
    | error e =>
      obtain ⟨action, haction⟩ := haction
      exact nomatch haction.symm.trans (executeReviewRollback_error hrollback).2
    | ok outcome =>
      refine ⟨engine', outcome, ?_⟩
      rw [eraseP_id_eq_filter hnodup, ← hid]
      rfl

variable (env) in
theorem executeAndRecordReviewRollback_cases (store : ReviewStore F) (host : RemediationHost)
    (engine : RemediationEngine) (fault : Option String)
    (request : ExecuteReviewRollbackRequest F) (now : Int) :
    (∃ e : ExecuteReviewRollbackError, (∀ m, e ≠ .storage m) ∧
        executeAndRecordReviewRollback env host store engine fault request now =
          ((store, engine), .error e)) ∨
      (∃ engine' e, executeAndRecordReviewRollback env host store engine fault request now =
        ((store, engine'), .error (.storage e))) ∨
      ∃ review, (loadRemediationChangeReviews store).find? (fun r => r.id = request.reviewId) =
          some review ∧ request.permit review = .ok () ∧ review.approvalStatus = "approved" ∧
        (∃ action, rollbackActionFromEvidence review.evidence = .ok action) ∧ fault = none := by
  unfold executeAndRecordReviewRollback
  dsimp only
  cases hfind : (loadRemediationChangeReviews store).find? (fun r => r.id = request.reviewId) with
  | none => exact .inl ⟨.notFound, nofun, rfl⟩
  | some review =>
    dsimp only
    cases hpermit : request.permit review with
    | error e =>
      refine .inl ⟨e, fun m hm => ?_, rfl⟩
      exact permit_ne_storage request review m (hpermit.trans (congrArg _ hm))
    | ok _ =>
      dsimp only
      split_ifs with hstatus
      · exact .inl ⟨.invalid _, nofun, rfl⟩
      · cases hrollback : executeReviewRollback host engine (request.rollbackRequest review) with
        | mk engine' result =>
          cases result with
          | error e =>
            obtain ⟨rfl, -⟩ := executeReviewRollback_error hrollback
            exact .inl ⟨.invalid e, nofun, rfl⟩
          | ok outcome =>
            cases fault with
            | some e => exact .inr (.inl ⟨engine', e, rfl⟩)
            | none =>
              exact .inr (.inr ⟨review, rfl, hpermit, not_not.mp hstatus,
                executeReviewRollback_ok hrollback, rfl⟩)

namespace ReviewWorld

variable {w w' : ReviewWorld F} {outcome : ReviewOutcome F}

/-- The stored reviews are what the proceedings say. -/
def Sound (w : ReviewWorld F) : Prop :=
  AllTracked w.proceedings (loadRemediationChangeReviews w.store)

theorem sound_start (engine : RemediationEngine) : (start engine : ReviewWorld F).Sound :=
  ⟨List.nodup_nil, fun _ h => absurd h List.not_mem_nil⟩

/-- What a call does: it stores a review with its proceedings, or it is refused and changes
nothing, or the storage fails and keeps the reviews as they were. -/
inductive Effect (w w' : ReviewWorld F) : ReviewOutcome F → Prop where
  | stored (review : RemediationChangeReview F) (p : Proceedings F) (hp : Tracked p review)
      (hstore : w'.store = replaced w.store review)
      (hproceedings : w'.proceedings = Function.update w.proceedings review.id (some p)) :
      Effect w w' (.ok review)
  | refused (h : w' = w) : Effect w w' .refused
  | storageFailed (hstore : w'.store = w.store) (hproceedings : w'.proceedings = w.proceedings) :
      Effect w w' .storageFailed

theorem Effect.sound (h : Effect w w' outcome) (hw : w.Sound) : w'.Sound := by
  cases h with
  | stored review p hp hstore hproceedings =>
    rw [Sound, hstore, hproceedings]
    exact hw.replace hp
  | refused h => exact h ▸ hw
  | storageFailed hstore hproceedings =>
    rw [Sound, hstore, hproceedings]
    exact hw

theorem Effect.unchanged (h : Effect w w' .refused) : w' = w := by
  cases h with
  | refused h => exact h

theorem record_effect (payload : Value F) (actor : String) (now : Int) (fault : Option String) :
    Effect w (w.after env (.record payload actor now fault))
      (w.perform env (.record payload actor now fault)).2 := by
  rcases recordRemediationChangeReview_cases env w.store fault payload actor now with
    ⟨e, h⟩ | ⟨e, h⟩ | ⟨review, hreview, h⟩
  · simp only [after, perform, h]
    exact .refused rfl
  · simp only [after, perform, h]
    exact .storageFailed rfl rfl
  · simp only [after, perform, h]
    exact .stored review _ (tracked_of_remediationReviewFromPayload hreview) rfl rfl

theorem approve_effect (hw : w.Sound) (reviewId : String) (payload : Value F) (actor : String)
    (now : Int) (fault : Option String) :
    Effect w (w.after env (.approve reviewId payload actor now fault))
      (w.perform env (.approve reviewId payload actor now fault)).2 := by
  rcases approveRemediationChangeReview_cases env hw.nodup fault reviewId payload actor now with
    ⟨e, he, h⟩ | ⟨e, h⟩ | ⟨review, hmem, rfl, review', hreview, h⟩
  · have houtcome : (e.outcome : ReviewOutcome F) = .refused := by
      cases e with
      | storage m => exact absurd rfl (he m)
      | notFound => rfl
      | invalid m => rfl
    simp only [after, perform, h, houtcome]
    exact .refused rfl
  · simp only [after, perform, h]
    exact .storageFailed rfl rfl
  · have hdecided := decidedBy_of_applyRemediationReviewApproval hreview
    obtain ⟨p, hproceedings, hp⟩ := hw.tracked review hmem
    simp only [after, perform, h]
    refine .stored review' _ (hp.decide hdecided) rfl ?_
    rw [decided, hproceedings, hdecided.id]
    rfl

theorem execute_effect (hw : w.Sound) (host : RemediationHost)
    (request : ExecuteReviewRollbackRequest F) (now : Int) (fault : Option String) :
    Effect w (w.after env (.execute host request now fault))
      (w.perform env (.execute host request now fault)).2 := by
  rcases executeAndRecordReviewRollback_cases env w.store host w.engine fault request now with
    ⟨e, he, h⟩ | ⟨engine, e, h⟩ | ⟨review, hfind, hpermit, hstatus, haction, rfl⟩
  · have houtcome : (e.outcome : ReviewOutcome F) = .refused := by
      cases e with
      | storage m => exact absurd rfl (he m)
      | _ => rfl
    simp only [after, perform, h, houtcome]
    exact .refused rfl
  · simp only [after, perform, h]
    exact .storageFailed rfl rfl
  · obtain ⟨engine, outcome, h⟩ := executeAndRecordReviewRollback_of_approved env hw.nodup host
      w.engine now hfind hpermit hstatus haction
    obtain ⟨p, hproceedings, hp⟩ := hw.tracked review (List.mem_of_find?_eq_some hfind)
    simp only [after, perform, h]
    refine .stored _ p (hp.executed request outcome now) rfl ?_
    exact (Function.update_eq_self_iff.mpr hproceedings.symm).symm

theorem perform_effect (hw : w.Sound) (c : ReviewCall F) :
    Effect w (w.after env c) (w.perform env c).2 := by
  cases c with
  | record payload actor now fault => exact record_effect payload actor now fault
  | approve reviewId payload actor now fault =>
    exact approve_effect hw reviewId payload actor now fault
  | execute host request now fault => exact execute_effect hw host request now fault

theorem Sound.after (hw : w.Sound) (c : ReviewCall F) : (w.after env c).Sound :=
  (perform_effect hw c).sound hw

/-- A call is gated if and only if a rollback it makes is of a review decided on. -/
theorem gated_iff_decided (hw : w.Sound) (c : ReviewCall F) : Gated env w c ↔ Decided w c := by
  constructor
  · intro hgated
    cases c with
    | record payload actor now fault => trivial
    | approve reviewId payload actor now fault => trivial
    | execute host request now fault =>
      rintro review hfind hpermit haction rfl hstatus
      obtain ⟨engine, outcome, h⟩ := executeAndRecordReviewRollback_of_approved env hw.nodup host
        w.engine now hfind hpermit hstatus haction
      obtain ⟨p, hproceedings, hp⟩ := hw.tracked review (List.mem_of_find?_eq_some hfind)
      have hok : (w.perform env (.execute host request now none)).2 =
          .ok (executedReview env review request outcome now) := by
        simp only [perform, h]
      obtain ⟨p', hproceedings', hauthorized⟩ := hgated.authorized _ _ _ _ rfl _ hok
      obtain rfl := Option.some.inj (hproceedings.symm.trans hproceedings')
      exact (hp.executed request outcome now).approvals_ne_nil hauthorized
  · intro hdecided
    refine ⟨?_, fun hrefused => ?_⟩
    · rintro host request now fault rfl review' hok
      rcases executeAndRecordReviewRollback_cases env w.store host w.engine fault request now with
        ⟨e, he, h⟩ | ⟨engine, e, h⟩ | ⟨review, hfind, hpermit, hstatus, haction, rfl⟩
      · simp only [perform, h] at hok
        cases e <;> exact nomatch hok
      · simp only [perform, h] at hok
        exact nomatch hok
      · obtain ⟨engine, outcome, h⟩ := executeAndRecordReviewRollback_of_approved env hw.nodup host
          w.engine now hfind hpermit hstatus haction
        obtain ⟨p, hproceedings, hp⟩ := hw.tracked review (List.mem_of_find?_eq_some hfind)
        simp only [perform, h] at hok
        obtain rfl := ReviewOutcome.ok.inj hok
        refine ⟨p, hproceedings, (hp.executed request outcome now).authorized hstatus ?_⟩
        exact hdecided review hfind hpermit haction rfl hstatus
    · have hsame := (hrefused ▸ perform_effect hw c : Effect w (w.after env c) .refused).unchanged
      exact ⟨congrArg ReviewWorld.store hsame, congrArg ReviewWorld.engine hsame⟩

/-- A calendar of one hour, and texts that are not digested. -/
def plainEnv : ReviewEnv Empty := ⟨id, firstHour, fun _ => ""⟩

def idleHost : RemediationHost := ⟨none, fun _ => ⟨.error "", 0⟩, 0⟩

/-- One actor records a review with the status it wishes for, and plans its rollback. -/
def selfApproved : List (ReviewCall Empty) :=
  [.record (.object [("title", .string "Isolate host"), ("approval_status", .string "approved"),
      ("risk", .string "critical")]) "mallory" 0 none,
    .execute idleHost ⟨"review-0", .object [], "mallory", false, false⟩ 0 none]

end ReviewWorld

end Wardex.Remediation
