import Wardex.Response.Steps

/-! What holds of the stored requests after any sequence of calls. -/

namespace Wardex.Response

open Wardex.Lib

namespace ResponseOrchestrator

variable {σ : Type} {init : List ApprovalRecord → Prop} {o o' : ResponseOrchestrator σ}

/-- Every stored request has lived one of the possible lives, and the ledger tells it. -/
structure Inv (init : List ApprovalRecord → Prop) (o : ResponseOrchestrator σ) : Prop where
  stories : ∀ i req, o.requests[i]? = some req → Story init req (o.life i)
  covered : ∀ i req, o.requests[i]? = some req → o.Covers req (o.life i)
  quiet : ∀ i, o.requests.length ≤ i → o.life i = []

theorem inv_new (enforcers : σ) : (new enforcers).Inv init where
  stories := by simp [new]
  covered := by simp [new]
  quiet := fun _ _ => rfl

theorem Covers.append {req req' : ResponseRequest} {life events : List Happening}
    (h : o.Covers req life) (hledger : o.auditLedger <+: o'.auditLedger)
    (hkept : ∀ entry s, Documents entry req s → Documents entry req' s)
    (hevents : o'.Covers req' events) : o'.Covers req' (life ++ events) := by
  intro s hs
  rw [statuses_append] at hs
  rcases List.mem_append.mp hs with hold | hnew
  · obtain ⟨entry, hentry, hdocuments⟩ := h s hold
    exact ⟨entry, hledger.subset hentry, hkept entry s hdocuments⟩
  · exact hevents s hnew

theorem Inv.advance (h : o.Inv init) (hadvance : Advances init o o') : o'.Inv init := by
  refine ⟨fun i req' hi => ?_, fun i req' hi => ?_, fun i hi => ?_⟩
  · obtain ⟨events, hlife, -, ⟨req, hreq, ⟨rfl, rfl⟩ | hevolves⟩ | ⟨hnew, hstory⟩⟩ :=
      hadvance.requests i req' hi
    · rw [hlife, List.append_nil]
      exact h.stories i req' hreq
    · rw [hlife]
      exact (h.stories i req hreq).step hevolves
    · rw [hlife, h.quiet i hnew]
      exact hstory
  · obtain ⟨events, hlife, hcovers, ⟨req, hreq, ⟨rfl, rfl⟩ | hevolves⟩ | ⟨hnew, -⟩⟩ :=
      hadvance.requests i req' hi
    · rw [hlife]
      exact (h.covered i req' hreq).append hadvance.ledger (fun _ _ hd => hd) hcovers
    · rw [hlife]
      exact (h.covered i req hreq).append hadvance.ledger (fun _ _ hd => hd.evolves hevolves)
        hcovers
    · rw [hlife, h.quiet i hnew]
      exact hcovers
  · rw [hadvance.quiet i hi, h.quiet i (hadvance.length.trans hi)]

theorem inv_run (env : Enforcers σ) (parseRfc3339 : String → Option Int) (enforcers : σ)
    {ops : List OrchestratorOp} (h : ∀ op ∈ ops, Submits init op) :
    (run (after env parseRfc3339) (new enforcers) ops).Inv init := by
  refine run_invariant (P := fun _ op => Submits init op)
    (fun o op ho hop => ho.advance (advances_after env parseRfc3339 hop)) (inv_new enforcers) ?_
  refine along_iff.mpr fun as op bs he => h op ?_
  rw [he]
  exact List.mem_append_cons_self

/-- What stays, whatever is called: the ledger's entries, the places of the requests, and a
request that has come to its end. -/
structure Stays (o o' : ResponseOrchestrator σ) : Prop where
  ledger : o.auditLedger <+: o'.auditLedger
  requests : ∀ (i : Nat) req, o.requests[i]? = some req →
    ∃ req', o'.requests[i]? = some req' ∧ (req.status.Terminal → req' = req)

theorem Stays.refl (o : ResponseOrchestrator σ) : Stays o o where
  ledger := List.prefix_rfl
  requests := fun _ req hi => ⟨req, hi, fun _ => rfl⟩

theorem Stays.trans {a b c : ResponseOrchestrator σ} (h : Stays a b) (h' : Stays b c) :
    Stays a c where
  ledger := h.ledger.trans h'.ledger
  requests := by
    intro i req hi
    obtain ⟨req', hi', hsame⟩ := h.requests i req hi
    obtain ⟨req'', hi'', hsame'⟩ := h'.requests i req' hi'
    refine ⟨req'', hi'', fun hterminal => ?_⟩
    obtain rfl := hsame hterminal
    exact hsame' hterminal

theorem Advances.stays (h : Advances init o o') : Stays o o' where
  ledger := h.ledger
  requests := by
    intro i req hi
    have hlt : i < o.requests.length := (List.getElem?_eq_some_iff.mp hi).1
    have hi' := List.getElem?_eq_getElem (hlt.trans_le h.length)
    refine ⟨_, hi', fun hterminal => ?_⟩
    obtain ⟨events, -, -, ⟨req', hreq', ⟨hsame, -⟩ | hevolves⟩ | ⟨hnew, -⟩⟩ := h.requests i _ hi'
    · exact hsame.trans (Option.some.inj (hreq'.symm.trans hi))
    · obtain rfl := Option.some.inj (hreq'.symm.trans hi)
      exact absurd hterminal hevolves.not_terminal
    · omega

theorem stays_run (env : Enforcers σ) (parseRfc3339 : String → Option Int)
    (o : ResponseOrchestrator σ) (ops : List OrchestratorOp) :
    Stays o (run (after env parseRfc3339) o ops) :=
  run_relation Stays.refl (fun _ _ _ h h' => h.trans h')
    (fun o op => by
      have hsubmits : Submits (fun _ => True) op := by cases op <;> trivial
      exact (advances_after env parseRfc3339 hsubmits).stays) o ops

end ResponseOrchestrator

open ResponseOrchestrator

variable {σ : Type}

/-- **The approval gate.**  After any calls, with requests submitted without approvals: wherever
`enforce_action` was invoked for a stored request that is not of the automatic tier, the
request had been given its approvals, by different approvers other than the requester, no
denial, had not expired, and is not of the break-glass tier. -/
theorem enforced_authorized (env : Enforcers σ) (parseRfc3339 : String → Option Int)
    (enforcers : σ) (ops : List OrchestratorOp)
    (hsubmits : ∀ op ∈ ops, Submits (fun approvals => approvals = []) op) (i : Nat)
    (req : ResponseRequest)
    (hstored : (run (after env parseRfc3339) (new enforcers) ops).requests[i]? = some req)
    (htier : req.tier ≠ .auto) (before later : List Happening)
    (hlife : (run (after env parseRfc3339) (new enforcers) ops).life i =
      before ++ .enforcement :: later) : Authorized req before :=
  ((inv_run env parseRfc3339 enforcers hsubmits).stories i req hstored).authorized htier hlife

/-- **The life of a request.**  Between any two moments of a run the ledger only grows, and each
stored request has gone along the permitted moves to the status it has, starting as pending
unless it is handled automatically, with at most one enforcement, none for a dry run, and a
ledger entry for every status it has taken; once it has come to its end it stays as it is. -/
theorem request_lifecycle (env : Enforcers σ) (parseRfc3339 : String → Option Int)
    (enforcers : σ) (ops later : List OrchestratorOp) :
    let o := run (after env parseRfc3339) (new enforcers) ops
    let o' := run (after env parseRfc3339) o later
    o.auditLedger <+: o'.auditLedger ∧ ∀ (i : Nat) req, o.requests[i]? = some req →
      (statuses (o.life i)).IsChain Moves ∧
      (statuses (o.life i)).getLast? = some req.status ∧
      (req.tier ≠ .auto → (statuses (o.life i)).head? = some .pending) ∧
      (o.life i).count .enforcement ≤ 1 ∧
      (req.dryRun = true → .enforcement ∉ o.life i) ∧
      (∀ s ∈ statuses (o.life i), ∃ entry ∈ o.auditLedger, Documents entry req s) ∧
      (req.status.Terminal → o'.requests[i]? = some req) := by
  intro o o'
  have hinv : o.Inv fun _ => True :=
    inv_run env parseRfc3339 enforcers fun op _ => by cases op <;> trivial
  have hstays : Stays o o' := stays_run env parseRfc3339 o later
  refine ⟨hstays.ledger, fun i req hi => ?_⟩
  have hstory := hinv.stories i req hi
  refine ⟨hstory.isChain_statuses, hstory.getLast?_statuses, hstory.head?_statuses,
    hstory.count_enforcement, hstory.enforcement_notMem_of_dryRun, hinv.covered i req hi,
    fun hterminal => ?_⟩
  obtain ⟨req', hi', hsame⟩ := hstays.requests i req hi
  exact hsame hterminal ▸ hi'

/-- Engines that succeed at everything. -/
def obliging : Enforcers Unit :=
  let ok := fun action : String =>
    ({ action := action, success := true, detail := "done", rollbackCommand := none }, ())
  { killProcess := fun _ _ => ok "kill_process"
    blockAll := fun _ _ => ok "block_all"
    rateLimit := fun _ _ _ => ok "rate_limit"
    quarantinePath := fun _ _ => ok "quarantine_path" }

/-- A request to isolate a host, as an analyst submits it. -/
def isolateRequest : ResponseRequest where
  id := "r1"
  action := .isolate
  target := { hostname := "web-1", agentUid := none, assetTags := [] }
  reason := "beaconing"
  severity := "high"
  tier := .auto
  status := .pending
  requestedAt := "1000"
  requestedBy := "alice"
  approvals := []
  dryRun := false
  blastRadius := none
  isProtectedAsset := false

def bobApproves : ApprovalRecord where
  approver := "bob"
  decision := .approve
  timestamp := "1010"
  comment := none

/-- Submitted, approved by another analyst, executed. -/
theorem enforced_authorized_isolate :
    Authorized
      { isolateRequest with
        tier := .singleApproval
        status := .executed
        approvals := [bobApproves]
        blastRadius := some (assessBlastRadius false .isolate isolateRequest.target) }
      [.status .pending, .decision bobApproves, .status .approved] :=
  enforced_authorized obliging (fun _ => none) ()
    [.submit isolateRequest, .approve "r1" bobApproves "1011", .executeApproved]
    (List.forall_mem_cons.mpr ⟨rfl, List.forall_mem_cons.mpr ⟨trivial, by simp [Submits]⟩⟩) 0 _ rfl
    (by decide) _ [.status .executed] rfl

end Wardex.Response
