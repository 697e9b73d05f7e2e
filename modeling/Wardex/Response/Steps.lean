import Wardex.Lib.Run
import Wardex.Response.Lifecycle

/-! What a call of the orchestrator does to each stored request, to its life, and to the
ledger. -/

namespace Wardex.Response

open Wardex.Lib

/-- A ledger entry about the request, with the given status. -/
structure Documents (entry : ResponseAuditEntry) (req : ResponseRequest) (s : ApprovalStatus) :
    Prop where
  requestId : entry.requestId = req.id
  action : entry.action = req.action
  targetHostname : entry.targetHostname = req.target.hostname
  tier : entry.tier = req.tier
  dryRun : entry.dryRun = req.dryRun
  status : entry.status = s

theorem documents_inner (req : ResponseRequest) (now : String) :
    Documents (auditEntryInner req now) req req.status := ⟨rfl, rfl, rfl, rfl, rfl, rfl⟩

theorem documents_withResult (req : ResponseRequest) (executionResult : Option String) :
    Documents (auditEntryWithResult req executionResult) req req.status :=
  ⟨rfl, rfl, rfl, rfl, rfl, rfl⟩

theorem Documents.evolves {entry : ResponseAuditEntry} {req req' : ResponseRequest}
    {events : List Happening} {s : ApprovalStatus} (h : Documents entry req s)
    (hevolves : Evolves req req' events) : Documents entry req' s := by
  obtain ⟨h₁, h₂, h₃, h₄, h₅, h₆⟩ := h
  cases hevolves <;> exact ⟨h₁, h₂, h₃, h₄, h₅, h₆⟩

namespace ResponseOrchestrator

variable {σ : Type} {init : List ApprovalRecord → Prop} {o o' : ResponseOrchestrator σ}

/-- What has happened to the request at position `i`. -/
def life (o : ResponseOrchestrator σ) (i : Nat) : List Happening := atTag i o.trace

/-- Every status that `events` give to the request is in the ledger. -/
def Covers (o : ResponseOrchestrator σ) (req : ResponseRequest) (events : List Happening) : Prop :=
  ∀ s ∈ statuses events, ∃ entry ∈ o.auditLedger, Documents entry req s

/-- One call: requests are only added at the end, each stored request makes at most one move,
and what happens to it is in the ledger. -/
structure Advances (init : List ApprovalRecord → Prop) (o o' : ResponseOrchestrator σ) :
    Prop where
  length : o.requests.length ≤ o'.requests.length
  ledger : o.auditLedger <+: o'.auditLedger
  quiet : ∀ i, o'.requests.length ≤ i → o'.life i = o.life i
  requests : ∀ i req', o'.requests[i]? = some req' → ∃ events,
    o'.life i = o.life i ++ events ∧ o'.Covers req' events ∧
      ((∃ req, o.requests[i]? = some req ∧ (req' = req ∧ events = [] ∨ Evolves req req' events)) ∨
        o.requests.length ≤ i ∧ Story init req' events)

theorem Covers.nil (req : ResponseRequest) : o.Covers req [] := by
  simp [Covers, statuses]

theorem Advances.of_same (hrequests : o'.requests = o.requests) (htrace : o'.trace = o.trace)
    (hledger : o'.auditLedger = o.auditLedger) : Advances init o o' where
  length := by rw [hrequests]
  ledger := by rw [hledger]
  quiet := fun i _ => by rw [life, life, htrace]
  requests := by
    intro i req hi
    refine ⟨[], by rw [life, life, htrace, List.append_nil], Covers.nil req, ?_⟩
    exact Or.inl ⟨req, hrequests ▸ hi, Or.inl ⟨rfl, rfl⟩⟩

/-- A call in which every stored request has its turn. -/
theorem Advances.of_turns {τ : Type} {turns : List τ} {next : τ → ResponseRequest}
    {events : τ → List Happening} (hrequests : o'.requests = turns.map next)
    (htrace : o'.trace = o.trace ++ tagged events turns 0)
    (hlength : turns.length = o.requests.length) (hledger : o.auditLedger <+: o'.auditLedger)
    (hcovers : ∀ t ∈ turns, o'.Covers (next t) (events t))
    (hturn : ∀ (i : Nat) t, turns[i]? = some t → ∃ req, o.requests[i]? = some req ∧
      (next t = req ∧ events t = [] ∨ Evolves req (next t) (events t))) : Advances init o o' := by
  have hlife : ∀ i : Nat, o'.life i = o.life i ++ (turns[i]?).elim [] events := by
    intro i
    have htagged := atTag_tagged events turns i 0
    rw [Nat.zero_add] at htagged
    rw [life, htrace, atTag_append, htagged]
    rfl
  refine ⟨?_, hledger, fun i hi => ?_, fun i req' hi => ?_⟩
  · rw [hrequests, List.length_map, hlength]
  · rw [hrequests, List.length_map] at hi
    rw [hlife, List.getElem?_eq_none hi]
    exact List.append_nil _
  · rw [hrequests, List.getElem?_map, Option.map_eq_some_iff] at hi
    obtain ⟨t, ht, rfl⟩ := hi
    refine ⟨events t, by rw [hlife, ht]; rfl, hcovers t (List.mem_of_getElem? ht), ?_⟩
    exact Or.inl (hturn i t ht)

/-! ## Submission -/

/-- A call that stores one more request. -/
theorem Advances.of_stored {request : ResponseRequest} {executionResult : Option String}
    {happenings : List Happening} (hrequests : o'.requests = o.requests ++ [request])
    (htrace : o'.trace = o.trace ++ happenings.map (Prod.mk o.requests.length))
    (hledger : o'.auditLedger = o.auditLedger ++ [auditEntryWithResult request executionResult])
    (hstory : Story init request happenings) (hstatus : statuses happenings = [request.status]) :
    Advances init o o' := by
  have hother : ∀ i : Nat, o.requests.length ≠ i → o'.life i = o.life i := by
    intro i hi
    rw [life, htrace, atTag_append, atTag_map_ne hi, List.append_nil]
    rfl
  have hlength : o'.requests.length = o.requests.length + 1 := by
    rw [hrequests, List.length_append, List.length_singleton]
  refine ⟨by omega, hledger ▸ List.prefix_append .., fun i hi => hother i (by omega), ?_⟩
  intro i req' hi
  rcases Nat.lt_trichotomy i o.requests.length with hlt | rfl | hgt
  · rw [hrequests, List.getElem?_append_left hlt] at hi
    refine ⟨[], ?_, Covers.nil req', Or.inl ⟨req', hi, Or.inl ⟨rfl, rfl⟩⟩⟩
    rw [hother i (by omega), List.append_nil]
  · rw [hrequests, List.getElem?_concat_length] at hi
    obtain rfl := Option.some.inj hi
    refine ⟨happenings, ?_, fun s hs => ?_, Or.inr ⟨le_rfl, hstory⟩⟩
    · rw [life, htrace, atTag_append, atTag_map_self]
      rfl
    · rw [hstatus] at hs
      rw [List.mem_singleton.mp hs, hledger]
      exact ⟨_, List.mem_append_right _ (List.mem_singleton_self _), documents_withResult ..⟩
  · obtain ⟨hlt, -⟩ := List.getElem?_eq_some_iff.mp hi
    omega

theorem advances_submit (env : Enforcers σ) {request : ResponseRequest}
    (hinit : init request.approvals) : Advances init o (o.submit env request).1 := by
  unfold submit
  dsimp only
  split_ifs with hglass hauto htier
  · exact Advances.of_same rfl rfl rfl
  · refine Advances.of_stored rfl rfl rfl ?_ rfl
    exact @Story.automatic _ { o.classify request with status := outcome _ } hinit hauto.1
      hauto.2 _ rfl
  · refine Advances.of_stored rfl rfl rfl ?_ rfl
    refine .simulated (by exact hinit) htier ?_ rfl
    exact (Bool.not_eq_false _).mp fun hreal => hauto ⟨htier, hreal⟩
  · refine Advances.of_stored rfl rfl rfl ?_ rfl
    refine .queued (by exact hinit) htier (fun htier' => ?_) rfl
    exact (Bool.not_eq_false _).mp fun hreal => hglass ⟨htier', hreal⟩

/-! ## Approval -/

/-- An accepted decision moves the request. -/
theorem evolves_of_applyDecision {req decided : ResponseRequest} {requestId : String}
    {record : ApprovalRecord} (h : req.applyDecision requestId record = .ok decided) :
    Evolves req decided
      (.decision record ::
        if decided.status = req.status then [] else [.status decided.status]) := by
  unfold ResponseRequest.applyDecision at h
  split at h
  · cases h
  next hlive =>
  have hpending : req.status = .pending := not_not.mp hlive
  split at h
  · next hdeny =>
    obtain rfl := Except.ok.inj h
    rw [if_neg (by rw [hpending]; simp)]
    exact .denied hpending hdeny
  next hdeny =>
  split at h
  · cases h
  next hrequester =>
  split at h
  · cases h
  next hfresh =>
  have hdecision : record.decision = .approve := by
    cases hd : record.decision with
    | approve => rfl
    | deny => exact absurd hd hdeny
  have haccepts : Accepts req record := ⟨hpending, hdecision, hrequester, by simpa using hfresh⟩
  dsimp only at h
  split at h
  · next hcount =>
    obtain rfl := Except.ok.inj h
    have hmoved : (if req.dryRun then .dryRunCompleted else .approved) ≠ req.status := by
      rw [hpending]
      split <;> simp
    rw [if_neg hmoved]
    exact .granted haccepts hcount
  · obtain rfl := Except.ok.inj h
    rw [if_pos rfl]
    exact .counted haccepts

theorem getElem?_of_lookup {requestId : String} {req : ResponseRequest} {i : Nat}
    (h : o.lookup requestId = some (req, i)) : o.requests[i]? = some req :=
  List.mem_zipIdx_iff_getElem?.mp (List.mem_of_find?_eq_some h)

theorem advances_approve (requestId : String) (record : ApprovalRecord) (now : String) :
    Advances init o (o.approve requestId record now).1 := by
  unfold approve
  cases hlookup : o.lookup requestId with
  | none => exact Advances.of_same rfl rfl rfl
  | some found =>
    obtain ⟨req, i⟩ := found
    have hi := getElem?_of_lookup hlookup
    dsimp only
    cases hdecide : req.applyDecision requestId record with
    | error => exact Advances.of_same rfl rfl rfl
    | ok decided =>
      have hevolves := evolves_of_applyDecision hdecide
      obtain ⟨hlt, -⟩ := List.getElem?_eq_some_iff.mp hi
      refine ⟨by simp, List.prefix_append .., fun j hj => ?_, fun j req' hj => ?_⟩
      · rw [List.length_set] at hj
        rw [life, atTag_append, atTag_map_ne (by omega), List.append_nil]
        rfl
      · by_cases hji : i = j
        · subst hji
          rw [List.getElem?_set_self hlt] at hj
          obtain rfl := Option.some.inj hj
          refine ⟨_, ?_, fun s hs => ?_, Or.inl ⟨req, hi, Or.inr hevolves⟩⟩
          · rw [life, atTag_append, atTag_map_self]
            rfl
          · refine ⟨_, List.mem_append_right _ (List.mem_singleton_self _), ?_⟩
            obtain rfl : s = decided.status := by
              split at hs
              · simp [statuses] at hs
              · simpa [statuses] using hs
            exact documents_inner decided now
        · rw [List.getElem?_set_ne hji] at hj
          refine ⟨[], ?_, Covers.nil req', Or.inl ⟨req', hj, Or.inl ⟨rfl, rfl⟩⟩⟩
          rw [life, atTag_append, atTag_map_ne hji]
          rfl

/-! ## Expiry -/

theorem advances_expireStale (parseRfc3339 : String → Option Int) (nowEpoch : Nat)
    (now : String) : Advances init o (o.expireStale parseRfc3339 nowEpoch now) := by
  refine Advances.of_turns rfl rfl rfl (List.prefix_append ..) (fun req hreq s hs => ?_)
    (fun i req hi => ⟨req, hi, ?_⟩)
  · split at hs
    · next hstale =>
      rw [if_pos hstale]
      obtain rfl : s = .expired := by simpa [statuses] using hs
      exact ⟨_, List.mem_append_right _ (List.mem_map_of_mem (List.mem_filter.mpr
        ⟨hreq, hstale⟩)), documents_inner { req with status := .expired } now⟩
    · simp [statuses] at hs
  · split
    · next hstale =>
      simp only [isStale, decide_eq_true_eq] at hstale
      exact Or.inr (.expired hstale.1)
    · exact Or.inl ⟨rfl, rfl⟩

/-! ## Execution -/

/-- A turn either passes over its request or enforces an approved one. -/
theorem executeTurns_cases (env : Enforcers σ) (requestId : Option String)
    (requests : List ResponseRequest) (s : σ) :
    (executeTurns env requestId requests s).1.length = requests.length ∧
      ∀ (i : Nat) turn, (executeTurns env requestId requests s).1[i]? = some turn →
        ∃ req, requests[i]? = some req ∧ (turn = (req, none) ∨
          req.status = .approved ∧ req.dryRun = false ∧ ∃ result : EnforcementResult,
            turn = ({ req with status := outcome result.success }, some result)) := by
  induction requests generalizing s with
  | nil => simp [executeTurns]
  | cons req rest ih =>
    rw [executeTurns]
    dsimp only
    split
    · obtain ⟨hlength, hturns⟩ := ih s
      refine ⟨congrArg Nat.succ hlength, fun i turn hi => ?_⟩
      cases i with
      | zero => exact ⟨req, rfl, Or.inl (Option.some.inj hi).symm⟩
      | succ i => exact hturns i turn hi
    · next hskip =>
      rw [not_or, not_or, not_not] at hskip
      obtain ⟨hlength, hturns⟩ := ih (enforceAction env req.action req.target s).2
      refine ⟨congrArg Nat.succ hlength, fun i turn hi => ?_⟩
      cases i with
      | zero =>
        exact ⟨req, rfl, Or.inr ⟨not_not.mp hskip.2.1, by simpa using hskip.2.2,
          (enforceAction env req.action req.target s).1, (Option.some.inj hi).symm⟩⟩
      | succ i => exact hturns i turn hi

theorem advances_executeApprovedMatching (env : Enforcers σ) (requestId : Option String) :
    Advances init o (o.executeApprovedMatching env requestId).1 := by
  obtain ⟨hlength, hturns⟩ := executeTurns_cases env requestId o.requests o.enforcers
  refine Advances.of_turns rfl rfl hlength (List.prefix_append ..) (fun turn hturn s hs => ?_)
    (fun i turn hi => ?_)
  · obtain ⟨req, result⟩ := turn
    cases result with
    | none => simp [turnHappenings, statuses] at hs
    | some result =>
      obtain rfl : s = req.status := by simpa [turnHappenings, statuses] using hs
      exact ⟨_, List.mem_append_right _ (List.mem_filterMap.mpr ⟨_, hturn, rfl⟩),
        documents_withResult req (some result.detail)⟩
  · obtain ⟨req, hreq, rfl | ⟨happroved, hreal, result, rfl⟩⟩ := hturns i turn hi
    · exact ⟨req, hreq, Or.inl ⟨rfl, rfl⟩⟩
    · exact ⟨req, hreq, Or.inr (.enforced happroved hreal result.success)⟩

/-! ## Runs -/

/-- A submission comes with approvals that satisfy `init`. -/
def Submits (init : List ApprovalRecord → Prop) : OrchestratorOp → Prop
  | .submit request => init request.approvals
  | _ => True

theorem advances_after (env : Enforcers σ) (parseRfc3339 : String → Option Int)
    {op : OrchestratorOp} (h : Submits init op) :
    Advances init o (o.after env parseRfc3339 op) := by
  cases op with
  | registerProtectedAsset => exact Advances.of_same rfl rfl rfl
  | submit => exact advances_submit env h
  | approve requestId record now => exact advances_approve requestId record now
  | expireStale nowEpoch now => exact advances_expireStale parseRfc3339 nowEpoch now
  | executeApproved => exact advances_executeApprovedMatching env none
  | executeApprovedMatching requestId => exact advances_executeApprovedMatching env requestId

end ResponseOrchestrator

end Wardex.Response
