import Wardex.Cluster.Node
import Wardex.Lib.Ballot

/-! Votes of a single node over arbitrary sequences of calls with arbitrary arguments:
one vote per term, and whether the recorded vote belongs to the present term. -/

namespace Wardex.Cluster

open Wardex.Lib

variable {Value : Type}

namespace ClusterNode

def ballot (n : ClusterNode Value) : Ballot Nat NodeId :=
  { term := n.state.term, votedFor := n.state.votedFor }

/-- The vote a call gives, as its result shows it: the node's own in `start_election`, and
the candidate's in a granting response, with the term that the result carries. -/
def castVote (n : ClusterNode Value) : NodeOp Value → Option (Nat × NodeId)
  | .startElection => some (n.startElection.2.term, n.startElection.2.candidateId)
  | .handleVoteRequest req =>
    if (n.handleVoteRequest req).2.voteGranted then
      some ((n.handleVoteRequest req).2.term, req.candidateId)
    else none
  | _ => none

/-- `start_election` is not called at the largest term, where `term += 1` wraps to 0. -/
def NoTermOverflow (n : ClusterNode Value) : NodeOp Value → Prop
  | .startElection => n.state.term + 1 < 2 ^ 64
  | _ => True

/-! ## The handlers seen as steps of a voter -/

theorem wrappingAdd_one_of_lt {t : Nat} (h : t + 1 < 2 ^ 64) : wrappingAdd t 1 = t + 1 :=
  Nat.mod_eq_of_lt h

theorem le_wrappingAdd_one_iff (t : Nat) : t ≤ wrappingAdd t 1 ↔ t + 1 < 2 ^ 64 := by
  constructor
  · intro h
    by_contra hge
    have hlt : wrappingAdd t 1 < 2 ^ 64 := Nat.mod_lt _ (by decide)
    have ht : t + 1 = 2 ^ 64 := by omega
    have h0 : wrappingAdd t 1 = 0 := by simp [wrappingAdd, ht]
    omega
  · intro h
    rw [wrappingAdd_one_of_lt h]
    omega

/-- A rejected vote request of an old term leaves the node alone. -/
theorem handleVoteRequest_stale {n : ClusterNode Value} {req : VoteRequest}
    (h : req.term < n.state.term) :
    n.handleVoteRequest req = (n, { term := n.state.term, voteGranted := false }) := by
  simp [handleVoteRequest, h]

theorem handleVoteRequest_term {n : ClusterNode Value} {req : VoteRequest}
    (h : n.state.term ≤ req.term) :
    (n.handleVoteRequest req).1.state.term = req.term ∧
      (n.handleVoteRequest req).2.term = req.term := by
  have hlt : ¬ req.term < n.state.term := by omega
  by_cases hgt : n.state.term < req.term
  · simp only [handleVoteRequest, if_neg hlt, if_pos hgt, touch_state]
    split_ifs <;> simp
  · have he : n.state.term = req.term := by omega
    simp only [handleVoteRequest, if_neg hlt, if_neg hgt, touch_state]
    split_ifs <;> simp [he]

/-- A granted vote is recorded, was free to give, and went to an up-to-date candidate. -/
theorem handleVoteRequest_granted {n : ClusterNode Value} {req : VoteRequest}
    (h : (n.handleVoteRequest req).2.voteGranted = true) :
    n.state.term ≤ req.term ∧
      (n.handleVoteRequest req).1.state.votedFor = some req.candidateId ∧
      lastLogOk n.log req = true ∧
      (req.term = n.state.term →
        n.state.votedFor = none ∨ n.state.votedFor = some req.candidateId) := by
  by_cases hlt : req.term < n.state.term
  · rw [handleVoteRequest_stale hlt] at h
    exact absurd h (by simp)
  · simp only [handleVoteRequest, if_neg hlt, touch_state] at h ⊢
    obtain ⟨hvote, hlog⟩ := (Bool.and_eq_true _ _).mp h
    refine ⟨by omega, by simp [h], hlog, fun he => ?_⟩
    rw [if_neg (by omega)] at hvote
    simpa using hvote

theorem handleVoteRequest_refused {n : ClusterNode Value} {req : VoteRequest}
    (h : (n.handleVoteRequest req).2.voteGranted = false) :
    (n.handleVoteRequest req).1.state.votedFor =
      if n.state.term < req.term then none else n.state.votedFor := by
  by_cases hlt : req.term < n.state.term
  · rw [handleVoteRequest_stale hlt, if_neg (by omega)]
  · simp only [handleVoteRequest, if_neg hlt, touch_state] at h ⊢
    rw [if_neg (by simp [h])]
    split_ifs <;> rfl

/-- In its own term a node refuses an up-to-date candidate only for another recorded vote. -/
theorem votedFor_of_refused {n : ClusterNode Value} {req : VoteRequest}
    (ht : req.term = n.state.term) (hlog : lastLogOk n.log req = true)
    (h : (n.handleVoteRequest req).2.voteGranted = false) :
    ∃ c, c ≠ req.candidateId ∧ n.state.votedFor = some c := by
  simp only [handleVoteRequest, ht, lt_irrefl, if_false, hlog, Bool.and_true] at h
  cases hv : n.state.votedFor with
  | none => simp [hv] at h
  | some c =>
    refine ⟨c, fun he => ?_, rfl⟩
    simp [hv, he] at h

@[simp] theorem handleAppend_votedFor (n : ClusterNode Value) (req : AppendRequest Value) :
    (n.handleAppend req).1.state.votedFor = n.state.votedFor := by
  rcases n.handleAppend_cases req with ⟨-, h⟩ | ⟨-, _, -, h⟩ | ⟨-, -, _, -, h⟩ | ⟨-, -, _, -, h⟩ <;>
    rw [h] <;> rfl

theorem handleAppend_term (n : ClusterNode Value) (req : AppendRequest Value) :
    (n.handleAppend req).1.state.term = max n.state.term req.term := by
  rcases n.handleAppend_cases req with
    ⟨hlt, h⟩ | ⟨hle, _, -, h⟩ | ⟨hle, -, _, -, h⟩ | ⟨hle, -, _, -, h⟩ <;> rw [h]
  · exact (max_eq_left hlt.le).symm
  all_goals exact (max_eq_right hle).symm

theorem handleAppendResponse_ballot (n : ClusterNode Value) (id : NodeId)
    (resp : AppendResponse) :
    (n.handleAppendResponse id resp).state.term = max n.state.term resp.term ∧
      (n.handleAppendResponse id resp).state.votedFor = n.state.votedFor := by
  unfold handleAppendResponse
  split_ifs with h h'
  · exact ⟨(max_eq_right (le_of_lt h)).symm, rfl⟩
  · exact ⟨(max_eq_left (not_lt.mp h)).symm, rfl⟩
  · exact ⟨(max_eq_left (not_lt.mp h)).symm, rfl⟩

theorem handleInstallSnapshot_ballot (n : ClusterNode Value) (req : InstallSnapshotRequest) :
    (n.handleInstallSnapshot req).1.state.term = max n.state.term req.term ∧
      (n.handleInstallSnapshot req).1.state.votedFor =
        if n.state.term < req.term then none else n.state.votedFor := by
  unfold handleInstallSnapshot
  split_ifs with h h' h''
  · omega
  · exact ⟨(max_eq_left h.le).symm, rfl⟩
  · exact ⟨(max_eq_right (le_of_lt h'')).symm, rfl⟩
  · exact ⟨(max_eq_left (not_lt.mp h'')).symm, rfl⟩

theorem appendEntry_state (n : ClusterNode Value) (now : String) (entryType : EntryType)
    (data : Value) : (n.appendEntry now entryType data).1.state = n.state := by
  unfold appendEntry
  split_ifs <;> rfl

theorem ballot_handleVoteRequest (n : ClusterNode Value) (req : VoteRequest) :
    Ballot.Step n.ballot (n.after (.handleVoteRequest req)).ballot
      (n.castVote (.handleVoteRequest req)) := by
  by_cases hg : (n.handleVoteRequest req).2.voteGranted = true
  · obtain ⟨hle, hvf, -, hfree⟩ := handleVoteRequest_granted hg
    obtain ⟨ht, ht'⟩ := handleVoteRequest_term hle
    have hterm : (n.after (.handleVoteRequest req)).ballot.term = req.term := ht
    have hcast : n.castVote (.handleVoteRequest req) =
        some ((n.after (.handleVoteRequest req)).ballot.term, req.candidateId) := by
      simp only [castVote, if_pos hg, ht', hterm]
    rw [hcast]
    exact Ballot.Step.vote hvf (hle.trans_eq hterm.symm) fun he => hfree (hterm.symm.trans he)
  · have hr : (n.handleVoteRequest req).2.voteGranted = false := by simpa using hg
    have hcast : n.castVote (.handleVoteRequest req) = none := by simp [castVote, hr]
    rw [hcast]
    rcases lt_trichotomy req.term n.state.term with hlt | he | hgt
    · have hsame : n.after (.handleVoteRequest req) = n := by
        simp only [after, apply, handleVoteRequest_stale hlt]
      rw [hsame]
      exact Ballot.Step.refl _
    · have hvf := handleVoteRequest_refused hr
      rw [if_neg (by omega)] at hvf
      have hsame : (n.after (.handleVoteRequest req)).ballot = n.ballot :=
        congrArg₂ Ballot.mk ((handleVoteRequest_term he.ge).1.trans he) hvf
      rw [hsame]
      exact Ballot.Step.refl _
    · exact Ballot.Step.raise (lt_of_lt_of_eq hgt (handleVoteRequest_term hgt.le).1.symm)

theorem ballot_step (n : ClusterNode Value) (op : NodeOp Value) (h : n.NoTermOverflow op) :
    Ballot.Step n.ballot (n.after op).ballot (n.castVote op) := by
  cases op with
  | startElection =>
    have hterm : (n.after .startElection).ballot.term = n.state.term + 1 := wrappingAdd_one_of_lt h
    refine Ballot.Step.vote rfl ((Nat.le_succ _).trans_eq hterm.symm) fun he => ?_
    rw [hterm] at he
    exact absurd he (Nat.succ_ne_self _)
  | handleVoteRequest req => exact n.ballot_handleVoteRequest req
  | becomeLeader => exact Ballot.Step.refl n.ballot
  | appendEntry now entryType data =>
    have hsame : (n.after (.appendEntry now entryType data)).ballot = n.ballot := by
      simp only [after, apply, ballot, appendEntry_state]
    rw [hsame]
    exact Ballot.Step.refl _
  | handleAppend req =>
    refine Ballot.Step.of_votedFor (handleAppend_votedFor n req) ?_
    exact (le_max_left _ _).trans_eq (handleAppend_term n req).symm
  | prepareAppend peerId => exact Ballot.Step.refl n.ballot
  | handleAppendResponse peerId resp =>
    obtain ⟨ht, hv⟩ := handleAppendResponse_ballot n peerId resp
    exact Ballot.Step.of_votedFor hv ((le_max_left _ _).trans_eq ht.symm)
  | handleInstallSnapshot req =>
    obtain ⟨ht, hv⟩ := handleInstallSnapshot_ballot n req
    by_cases hlt : n.state.term < req.term
    · refine Ballot.Step.raise (lt_of_lt_of_eq hlt ?_)
      exact (max_eq_right hlt.le).symm.trans ht.symm
    · rw [if_neg hlt] at hv
      exact Ballot.Step.of_votedFor hv ((le_max_left _ _).trans_eq ht.symm)
  | compactLog upToIndex => exact Ballot.Step.refl n.ballot
  | markPeerUnreachable peerId => exact Ballot.Step.refl n.ballot

end ClusterNode

/-! ## Whole runs, with the votes given so far -/

/-- A node together with all the votes it has given, the oldest first. -/
structure VoteHistory (Value : Type) where
  node : ClusterNode Value
  votes : List (Nat × NodeId)

namespace VoteHistory

def new (config : ClusterConfig) : VoteHistory Value :=
  { node := ClusterNode.new config, votes := [] }

def step (h : VoteHistory Value) (op : NodeOp Value) : VoteHistory Value :=
  { node := h.node.after op, votes := h.votes ++ (h.node.castVote op).toList }

def voteSet (h : VoteHistory Value) : Set (Nat × NodeId) := {v | v ∈ h.votes}

theorem step_voteSet (h : VoteHistory Value) (op : NodeOp Value) :
    (h.step op).voteSet = h.voteSet ∪ {v | h.node.castVote op = some v} := by
  ext v
  simp [voteSet, step, Option.mem_toList]

/-- The record of the node backs every vote it has given, and they are one per term. -/
def Sound (h : VoteHistory Value) : Prop :=
  Ballot.Records h.node.ballot h.voteSet ∧ Ballot.OneVotePerTerm h.voteSet

theorem sound_new (config : ClusterConfig) : Sound (new config : VoteHistory Value) := by
  constructor
  · intro t c h
    simp [voteSet, new] at h
  · intro t c c' h
    simp [voteSet, new] at h

theorem Sound.step {h : VoteHistory Value} (hs : h.Sound) (op : NodeOp Value)
    (hop : h.node.NoTermOverflow op) : (h.step op).Sound := by
  have hb := h.node.ballot_step op hop
  have hv := h.step_voteSet op
  exact ⟨hv ▸ hs.1.step hb, hv ▸ hs.2.step hs.1 hb⟩

theorem term_le_step_iff (h : VoteHistory Value) (op : NodeOp Value) :
    h.node.state.term ≤ (h.step op).node.state.term ↔ h.node.NoTermOverflow op := by
  constructor
  · intro hle
    cases op with
    | startElection => exact (ClusterNode.le_wrappingAdd_one_iff _).mp hle
    | _ => trivial
  · intro hop
    exact (h.node.ballot_step op hop).term_le

end VoteHistory

/-- **One vote per term.**  A run of calls never lowers the term and gives at most one
vote in each term exactly when it never starts an election at the largest term. -/
theorem oneVotePerTerm_iff (config : ClusterConfig) (ops : List (NodeOp Value)) :
    (Along VoteHistory.step (fun h op => h.node.state.term ≤ (h.step op).node.state.term)
        (VoteHistory.new config) ops ∧
      Ballot.OneVotePerTerm (run VoteHistory.step (VoteHistory.new config) ops).voteSet) ↔
    Along VoteHistory.step (fun h op => h.node.NoTermOverflow op)
      (VoteHistory.new config) ops := by
  constructor
  · rintro ⟨hmono, -⟩
    exact hmono.mono fun h op => (h.term_le_step_iff op).mp
  · intro hop
    refine ⟨hop.mono fun h op => (h.term_le_step_iff op).mpr, ?_⟩
    exact (run_invariant (I := VoteHistory.Sound) (fun h op hs => hs.step op)
      (VoteHistory.sound_new config) hop).2

/-- A vote in term 1, one at the largest term, then an election: the term falls from
`u64::MAX` to 0, and the node votes a second time in term 1, for another candidate. -/
theorem oneVotePerTerm_fails_at_u64Max :
    let start : VoteHistory String := VoteHistory.new ⟨⟨"n1"⟩, [⟨"n2"⟩, ⟨"n3"⟩], 50⟩
    let ops := [.handleVoteRequest ⟨1, ⟨"n2"⟩, 0, 0⟩,
      .handleVoteRequest ⟨u64Max, ⟨"n2"⟩, 0, 0⟩, .startElection,
      .handleVoteRequest ⟨1, ⟨"n3"⟩, 0, 0⟩]
    ¬ Along VoteHistory.step
        (fun h op => h.node.state.term ≤ (h.step op).node.state.term) start ops ∧
      ¬ Ballot.OneVotePerTerm (run VoteHistory.step start ops).voteSet := by
  refine ⟨fun h => absurd h.2.2.1 (by decide), fun h => ?_⟩
  have h2 := h 1 ⟨"n2"⟩ ⟨"n3"⟩ (by simp only [VoteHistory.voteSet]; decide)
    (by simp only [VoteHistory.voteSet]; decide)
  exact absurd h2 (by decide)

/-! ## Freshness of the recorded vote -/

/-- `handle_append` and `handle_append_response` raise the term only of a node that has no
vote on record: the two handlers that do not reset `voted_for`. -/
def AdoptsUnvoted (n : ClusterNode Value) : NodeOp Value → Prop
  | .handleAppend req => n.state.term < req.term → n.state.votedFor = none
  | .handleAppendResponse _ resp => n.state.term < resp.term → n.state.votedFor = none
  | _ => True

/-- The recorded vote was cast in the present term, so an up-to-date candidate of the
present term is refused only for a vote cast in that term. -/
def VoteHistory.FreshVote (h : VoteHistory Value) : Prop :=
  (∀ c, h.node.state.votedFor = some c → (h.node.state.term, c) ∈ h.votes) ∧
  ∀ req : VoteRequest, req.term = h.node.state.term →
    ClusterNode.lastLogOk h.node.log req = true →
    (h.node.handleVoteRequest req).2.voteGranted = false →
    ∃ c, c ≠ req.candidateId ∧ (h.node.state.term, c) ∈ h.votes

theorem VoteHistory.freshVote_iff (h : VoteHistory Value) :
    h.FreshVote ↔ Ballot.Fresh h.node.ballot h.voteSet := by
  refine ⟨fun hf => hf.1, fun hf => ⟨hf, fun req ht hlog hr => ?_⟩⟩
  obtain ⟨c, hne, hc⟩ := ClusterNode.votedFor_of_refused ht hlog hr
  exact ⟨c, hne, hf c hc⟩

/-- Whatever the term does, a vote of this call is recorded under the new term. -/
theorem ClusterNode.ballot_casts (n : ClusterNode Value) (op : NodeOp Value) :
    Ballot.Casts n.ballot (n.after op).ballot (n.castVote op) := by
  by_cases h : op = .startElection
  · subst h
    refine ⟨by simp [castVote], ?_⟩
    rintro t c hc
    obtain ⟨rfl, rfl⟩ := Prod.mk.inj (Option.some.inj hc)
    exact ⟨rfl, rfl⟩
  · have hop : n.NoTermOverflow op := by
      cases op with
      | startElection => exact absurd rfl h
      | _ => trivial
    exact (n.ballot_step op hop).toCasts

theorem ClusterNode.votedFor_of_raise (n : ClusterNode Value) (op : NodeOp Value)
    (hop : AdoptsUnvoted n op) (hcast : n.castVote op = none)
    (ht : (n.after op).state.term ≠ n.state.term) : (n.after op).state.votedFor = none := by
  cases op with
  | startElection => simp [castVote] at hcast
  | handleVoteRequest req =>
    have hr : (n.handleVoteRequest req).2.voteGranted = false := by
      simpa [castVote] using hcast
    have hlt : n.state.term < req.term := by
      by_contra hge
      rcases (not_lt.mp hge).lt_or_eq with hlt | he
      · exact ht (by simp only [after, apply, handleVoteRequest_stale hlt])
      · exact ht ((handleVoteRequest_term he.ge).1.trans he)
    exact (handleVoteRequest_refused hr).trans (if_pos hlt)
  | handleAppend req =>
    have hmax : (n.after (.handleAppend req)).state.term = max n.state.term req.term :=
      handleAppend_term n req
    have hlt : n.state.term < req.term := by omega
    exact (handleAppend_votedFor n req).trans (hop hlt)
  | handleAppendResponse peerId resp =>
    obtain ⟨hmax, hv⟩ := handleAppendResponse_ballot n peerId resp
    have hmax' : (n.after (.handleAppendResponse peerId resp)).state.term =
      max n.state.term resp.term := hmax
    have hlt : n.state.term < resp.term := by omega
    exact hv.trans (hop hlt)
  | handleInstallSnapshot req =>
    obtain ⟨hmax, hv⟩ := handleInstallSnapshot_ballot n req
    have hmax' : (n.after (.handleInstallSnapshot req)).state.term =
      max n.state.term req.term := hmax
    have hlt : n.state.term < req.term := by omega
    exact hv.trans (if_pos hlt)
  | appendEntry now entryType data =>
    exact absurd (congrArg NodeState.term (appendEntry_state n now entryType data)) ht
  | becomeLeader => exact absurd rfl ht
  | prepareAppend peerId => exact absurd rfl ht
  | compactLog upToIndex => exact absurd rfl ht
  | markPeerUnreachable peerId => exact absurd rfl ht

theorem VoteHistory.FreshVote.step {h : VoteHistory Value} (hf : h.FreshVote)
    (op : NodeOp Value) (hop : AdoptsUnvoted h.node op) : (h.step op).FreshVote := by
  rw [freshVote_iff] at hf ⊢
  rw [h.step_voteSet op]
  exact hf.step (h.node.ballot_casts op) (h.node.votedFor_of_raise op hop)

/-- While the votes cast are backed by the record, a call that adopts a higher term and
keeps an older vote leaves a record that no vote of that term supports. -/
theorem VoteHistory.adoptsUnvoted_of_freshVote {h : VoteHistory Value} (hs : h.Sound)
    (op : NodeOp Value) (hf : (h.step op).FreshVote) : AdoptsUnvoted h.node op := by
  have stale : ∀ t, h.node.state.term < t → (h.step op).node.state.term = t →
      (h.step op).node.state.votedFor = h.node.state.votedFor →
      h.node.castVote op = none → h.node.state.votedFor = none := by
    intro t hlt ht hv hcast
    by_contra hne
    obtain ⟨c, hc⟩ := Option.ne_none_iff_exists'.mp hne
    have hmem := hf.1 c (hv.trans hc)
    rw [ht] at hmem
    have hold : (t, c) ∈ h.votes := by simpa [VoteHistory.step, hcast] using hmem
    exact absurd (hs.1 t c hold).1 (not_le.mpr hlt)
  cases op with
  | handleAppend req =>
    intro hlt
    refine stale req.term hlt ?_ (h.node.handleAppend_votedFor req) rfl
    exact (h.node.handleAppend_term req).trans (max_eq_right hlt.le)
  | handleAppendResponse peerId resp =>
    intro hlt
    obtain ⟨ht, hv⟩ := h.node.handleAppendResponse_ballot peerId resp
    exact stale resp.term hlt (ht.trans (max_eq_right hlt.le)) hv rfl
  | _ => trivial

/-- **Vote record freshness.**  If no call raises the term of a node with a vote on record
through `handle_append` or `handle_append_response`, the recorded vote is fresh in every
state of the run; and, short of a term overflow, this is also necessary. -/
theorem freshVote_of_adoptsUnvoted (config : ClusterConfig) (ops : List (NodeOp Value)) :
    (Along VoteHistory.step (fun h op => AdoptsUnvoted h.node op)
        (VoteHistory.new config) ops →
      Throughout VoteHistory.step VoteHistory.FreshVote (VoteHistory.new config) ops) ∧
    (Along VoteHistory.step (fun h op => h.node.NoTermOverflow op)
        (VoteHistory.new config) ops →
      Throughout VoteHistory.step VoteHistory.FreshVote (VoteHistory.new config) ops →
      Along VoteHistory.step (fun h op => AdoptsUnvoted h.node op)
        (VoteHistory.new config) ops) := by
  have hnew : (VoteHistory.new config : VoteHistory Value).FreshVote := by
    rw [VoteHistory.freshVote_iff]
    intro c hc
    exact absurd hc (by simp [VoteHistory.new, ClusterNode.ballot, ClusterNode.new])
  constructor
  · exact throughout_of_invariant (I := VoteHistory.FreshVote)
      (fun h op hf => hf.step op) (fun _ hf => hf) hnew
  · intro hop ht
    exact along_of_throughout (I := VoteHistory.Sound) (fun h op hs => hs.step op)
      (fun h op hs _ _ hf => VoteHistory.adoptsUnvoted_of_freshVote hs op hf)
      (VoteHistory.sound_new config) hop ht

/-- The node votes for `n2` in term 1 and then follows the leader of term 2: the vote of
term 1 stays on record, and a candidate of term 2 is refused because of it. -/
theorem freshVote_fails_after_append :
    let start : VoteHistory String := VoteHistory.new ⟨⟨"n1"⟩, [⟨"n2"⟩, ⟨"n3"⟩], 50⟩
    let ops := [.handleVoteRequest ⟨1, ⟨"n2"⟩, 0, 0⟩,
      .handleAppend ⟨2, ⟨"n3"⟩, 0, 0, [], 0⟩]
    ¬ Throughout VoteHistory.step VoteHistory.FreshVote start ops ∧
      ((run VoteHistory.step start ops).node.handleVoteRequest
        ⟨2, ⟨"n3"⟩, 0, 0⟩).2.voteGranted = false := by
  refine ⟨fun h => ?_, by decide⟩
  have hmem := h.2.2.1 ⟨"n2"⟩ (by decide)
  exact absurd hmem (by decide)

end Wardex.Cluster
