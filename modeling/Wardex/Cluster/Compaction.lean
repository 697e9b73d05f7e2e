import Wardex.Cluster.Commit

/-! Whether compacting a log, by `compact_log` or by installing a snapshot, can be seen
from outside through later calls. -/

namespace Wardex.Cluster

open Wardex.Lib

variable {Value : Type}

/-! ## What callers of the node observe -/

/-- The calls that may follow a compaction at `k`. -/
def Follows (k : Nat) (n : ClusterNode Value) : NodeOp Value → Prop
  | .appendEntry _ _ _ => True
  | .prepareAppend peerId => ∀ s, n.peerStatus.get peerId = some s → k + 1 < s.nextIndex
  | .handleAppend req => k < req.prevLogIndex
  | .startElection => True
  | .handleVoteRequest _ => True
  | .handleAppendResponse _ _ => True
  | _ => False

/-- The result of a call; of an election only the position of the last entry counts. -/
def observe (n : ClusterNode Value) : NodeOp Value → NodeResult Value ⊕ Nat × Nat
  | .startElection => .inr (n.startElection.2.lastLogIndex, n.startElection.2.lastLogTerm)
  | op => .inl (n.apply op).2

def observations : ClusterNode Value → List (NodeOp Value) → List (NodeResult Value ⊕ Nat × Nat)
  | _, [] => []
  | n, op :: ops => observe n op :: observations (n.after op) ops

/-- No sequence of later calls tells `n'` from `n`. -/
def Transparent (k : Nat) (n n' : ClusterNode Value) : Prop :=
  ∀ ops, Along ClusterNode.after (Follows k) n ops →
    observations n ops = observations n' ops ∧
      (run ClusterNode.after n ops).state.commitIndex =
        (run ClusterNode.after n' ops).state.commitIndex

/-! ## Forgetting what no call reports

Two nodes that differ only in the leader they follow and in the reachability of their
peers answer every call alike. -/

namespace PeerTable

def forget (t : PeerTable) : PeerTable := t.map fun p => (p.1, { p.2 with reachable := false })

theorem get_forget (t : PeerTable) (id : NodeId) :
    t.forget.get id = (t.get id).map fun s => { s with reachable := false } :=
  t.get_map (fun _ s => { s with reachable := false }) id

theorem forget_modify (t : PeerTable) (id : NodeId) {f : PeerStatus → PeerStatus}
    (hf : ∀ s, { f { s with reachable := false } with reachable := false } =
      ({ f s with reachable := false } : PeerStatus)) :
    (t.forget.modify id f).forget = (t.modify id f).forget := by
  simp only [forget, modify, List.map_map]
  refine List.map_congr_left fun p _ => ?_
  by_cases h : p.1 = id
  · simp only [Function.comp_apply, h, if_true, hf]
  · simp only [Function.comp_apply, h, if_false]

theorem length_forget (t : PeerTable) : t.forget.length = t.length := List.length_map _

end PeerTable

namespace ClusterNode

def forget (n : ClusterNode Value) : ClusterNode Value :=
  { n with state := { n.state with leaderId := none }, peerStatus := n.peerStatus.forget }

@[simp] theorem forget_log (n : ClusterNode Value) : n.forget.log = n.log := rfl

@[simp] theorem forget_commitIndex (n : ClusterNode Value) :
    n.forget.state.commitIndex = n.state.commitIndex := rfl

@[simp] theorem forget_votedFor (n : ClusterNode Value) :
    n.forget.state.votedFor = n.state.votedFor := rfl

theorem forget_forget (n : ClusterNode Value) : n.forget.forget = n.forget := by
  simp only [forget, PeerTable.forget, List.map_map]
  rfl

/-- Two state changes that differ at most in the leader are forgotten alike. -/
theorem forget_withState (n : ClusterNode Value) {s s' : NodeState}
    (h : { s with leaderId := none } = ({ s' with leaderId := none } : NodeState)) :
    ({ n.forget with state := s } : ClusterNode Value).forget =
      ({ n with state := s' } : ClusterNode Value).forget := by
  have hp : n.peerStatus.forget.forget = n.peerStatus.forget := congrArg peerStatus n.forget_forget
  simp only [forget, h, hp]

theorem forget_touch (n : ClusterNode Value) (id : NodeId) : (n.touch id).forget = n.forget := by
  unfold forget touch
  simp only [mk.injEq, true_and]
  simp only [PeerTable.forget, PeerTable.modify, List.map_map]
  refine List.map_congr_left fun p _ => ?_
  by_cases h : p.1 = id <;> simp [h]

theorem replicatedAt_forget (n : ClusterNode Value) (i : Nat) :
    n.forget.replicatedAt i = n.replicatedAt i := by
  simp only [replicatedAt, forget, PeerTable.forget, List.filter_map, List.length_map]
  rfl

theorem commitStep_forget (n : ClusterNode Value) : n.forget.commitStep = n.commitStep := by
  funext commit i
  simp only [commitStep, replicatedAt_forget]
  simp only [forget, PeerTable.length_forget]

theorem tryAdvanceCommit_forget (n : ClusterNode Value) :
    n.tryAdvanceCommit.forget = n.forget.tryAdvanceCommit := by
  simp only [tryAdvanceCommit, commitStep_forget]
  rfl

theorem recordPeer_forget (n : ClusterNode Value) (id : NodeId) (resp : AppendResponse) :
    (n.forget.recordPeer id resp).forget = (n.recordPeer id resp).forget := by
  unfold recordPeer forget
  simp only [mk.injEq, true_and]
  refine PeerTable.forget_modify _ id fun s => ?_
  unfold recordResponse
  split_ifs <;> rfl

theorem acceptLeader_forget (n : ClusterNode Value) (term : Nat) (id : NodeId) :
    (n.acceptLeader term id).forget =
      { n.forget with state := { n.forget.state with term := term, role := .follower } } := by
  unfold acceptLeader
  rw [forget_touch]
  rfl

theorem handleAppend_forget (n : ClusterNode Value) (req : AppendRequest Value) :
    (n.forget.handleAppend req).2 = (n.handleAppend req).2 ∧
      (n.forget.handleAppend req).1.forget = (n.handleAppend req).1.forget := by
  have hacc : (n.forget.acceptLeader req.term req.leaderId).forget =
      (n.acceptLeader req.term req.leaderId).forget := by
    rw [acceptLeader_forget, acceptLeader_forget]
    simp only [forget, PeerTable.forget, List.map_map]
    rfl
  by_cases hlt : req.term < n.state.term
  · have h : n.handleAppend req = _ := if_pos hlt
    have h' : n.forget.handleAppend req = _ := if_pos hlt
    rw [h, h']
    exact ⟨rfl, forget_forget n⟩
  · have h : n.handleAppend req = _ := if_neg hlt
    have h' : n.forget.handleAppend req = _ := if_neg hlt
    rw [h, h']
    dsimp only [acceptLeader_log, acceptLeader_commitIndex, acceptLeader_term, forget_log,
      forget_commitIndex]
    cases consistencyCheck n.log req.prevLogIndex req.prevLogTerm with
    | some log => exact ⟨rfl, congrArg (fun m => { m with log := log }) hacc⟩
    | none =>
      rcases appendEntries n.log req.entries with ⟨log, _ | _⟩
      · exact ⟨rfl, congrArg (fun m => { m with log := log }) hacc⟩
      · exact ⟨rfl, congrArg (fun m => { m with
          log := log
          state := { m.state with commitIndex :=
            (if req.leaderCommit > n.state.commitIndex then min req.leaderCommit log.length
              else n.state.commitIndex) } }) hacc⟩

theorem handleVoteRequest_forget (n : ClusterNode Value) (req : VoteRequest) :
    (n.forget.handleVoteRequest req).2 = (n.handleVoteRequest req).2 ∧
      (n.forget.handleVoteRequest req).1.forget = (n.handleVoteRequest req).1.forget := by
  by_cases hlt : req.term < n.state.term
  · rw [handleVoteRequest_stale hlt, handleVoteRequest_stale (n := n.forget) hlt]
    exact ⟨rfl, forget_forget n⟩
  · have h : n.handleVoteRequest req = _ := if_neg hlt
    have h' : n.forget.handleVoteRequest req = _ := if_neg hlt
    rw [h, h']
    dsimp only [forget_log]
    rw [forget_touch, forget_touch]
    by_cases hgt : n.state.term < req.term
    · have hgt' : n.forget.state.term < req.term := hgt
      simp only [gt_iff_lt, if_pos hgt, if_pos hgt']
      refine ⟨?_, forget_withState n ?_⟩ <;> split_ifs <;> rfl
    · have hgt' : ¬ n.forget.state.term < req.term := hgt
      simp only [gt_iff_lt, if_neg hgt, if_neg hgt', forget_votedFor]
      refine ⟨?_, forget_withState n ?_⟩ <;> split_ifs <;> rfl

theorem startElection_forget (n : ClusterNode Value) :
    n.forget.startElection.2 = n.startElection.2 ∧
      n.forget.startElection.1.forget = n.startElection.1.forget :=
  ⟨rfl, forget_withState n rfl⟩

theorem appendEntry_forget (n : ClusterNode Value) (now : String) (entryType : EntryType)
    (data : Value) :
    (n.forget.appendEntry now entryType data).2 = (n.appendEntry now entryType data).2 ∧
      (n.forget.appendEntry now entryType data).1.forget =
        (n.appendEntry now entryType data).1.forget := by
  by_cases hrole : n.state.role ≠ .leader
  · have h : n.appendEntry now entryType data = _ := if_pos hrole
    have h' : n.forget.appendEntry now entryType data = _ := if_pos hrole
    rw [h, h']
    exact ⟨rfl, forget_forget n⟩
  · have h : n.appendEntry now entryType data = _ := if_neg hrole
    have h' : n.forget.appendEntry now entryType data = _ := if_neg hrole
    rw [h, h']
    refine ⟨rfl, ?_⟩
    exact congrArg (fun m => ({ m with
      log := n.log ++ [⟨n.log.length + 1, n.state.term, now, entryType, data⟩] } :
        ClusterNode Value)) (forget_forget n)

theorem prepareAppend_forget (n : ClusterNode Value) (id : NodeId) :
    n.forget.prepareAppend id = n.prepareAppend id := by
  have hget : n.forget.peerStatus.get id =
      (n.peerStatus.get id).map fun s => { s with reachable := false } :=
    PeerTable.get_forget n.peerStatus id
  unfold prepareAppend
  rw [hget]
  by_cases hrole : n.state.role ≠ .leader
  · rw [if_pos hrole]
    exact if_pos hrole
  · rw [if_neg hrole]
    refine (if_neg hrole).trans ?_
    cases n.peerStatus.get id <;> rfl

theorem handleAppendResponse_forget (n : ClusterNode Value) (id : NodeId)
    (resp : AppendResponse) :
    (n.forget.handleAppendResponse id resp).forget =
      (n.handleAppendResponse id resp).forget := by
  by_cases hgt : resp.term > n.state.term
  · have h : n.handleAppendResponse id resp = _ := if_pos hgt
    have h' : n.forget.handleAppendResponse id resp = _ := if_pos hgt
    rw [h, h']
    exact forget_withState n rfl
  · have h : n.handleAppendResponse id resp = _ := if_neg hgt
    have h' : n.forget.handleAppendResponse id resp = _ := if_neg hgt
    have hget : (n.forget.peerStatus.get id).isNone = (n.peerStatus.get id).isNone := by
      rw [show n.forget.peerStatus.get id = _ from PeerTable.get_forget n.peerStatus id,
        Option.isNone_map]
    rw [h, h', hget]
    split_ifs
    · exact forget_forget n
    · rw [tryAdvanceCommit_forget, tryAdvanceCommit_forget, recordPeer_forget]

end ClusterNode

/-! ## Nodes that answer alike -/

/-- One call on nodes that agree up to what is forgotten. -/
theorem follows_forget {n n' : ClusterNode Value} (h : n.forget = n'.forget) {k : Nat}
    (op : NodeOp Value) (hop : Follows k n op) :
    observe n op = observe n' op ∧ (n.after op).forget = (n'.after op).forget := by
  have alike : ∀ m : ClusterNode Value, observe m op = observe m.forget op ∧
      (m.forget.after op).forget = (m.after op).forget := by
    intro m
    cases op with
    | startElection =>
      obtain ⟨h1, h2⟩ := m.startElection_forget
      exact ⟨by simp only [observe, h1], h2⟩
    | handleVoteRequest req =>
      obtain ⟨h1, h2⟩ := m.handleVoteRequest_forget req
      exact ⟨by simp only [observe, ClusterNode.apply, h1], h2⟩
    | appendEntry now entryType data =>
      obtain ⟨h1, h2⟩ := m.appendEntry_forget now entryType data
      exact ⟨by simp only [observe, ClusterNode.apply, h1], h2⟩
    | handleAppend req =>
      obtain ⟨h1, h2⟩ := m.handleAppend_forget req
      exact ⟨by simp only [observe, ClusterNode.apply, h1], h2⟩
    | prepareAppend id =>
      refine ⟨?_, m.forget_forget⟩
      simp only [observe, ClusterNode.apply, m.prepareAppend_forget id]
    | handleAppendResponse id resp => exact ⟨rfl, m.handleAppendResponse_forget id resp⟩
    | becomeLeader => exact hop.elim
    | handleInstallSnapshot req => exact hop.elim
    | compactLog upToIndex => exact hop.elim
    | markPeerUnreachable id => exact hop.elim
  obtain ⟨h1, h2⟩ := alike n
  obtain ⟨h1', h2'⟩ := alike n'
  rw [h] at h1 h2
  exact ⟨h1.trans h1'.symm, h2.symm.trans h2'⟩

theorem transparent_of_forget {n n' : ClusterNode Value} (h : n.forget = n'.forget) (k : Nat) :
    Transparent k n n' := by
  intro ops hops
  induction ops generalizing n n' with
  | nil => exact ⟨rfl, congrArg (fun m => m.state.commitIndex) h⟩
  | cons op ops ih =>
    obtain ⟨hobs, hnext⟩ := follows_forget h op hops.1
    obtain ⟨ih1, ih2⟩ := ih hnext hops.2
    exact ⟨congrArg₂ List.cons hobs ih1, ih2⟩

/-! ## What a compaction shows -/

/-- A heartbeat of the node's own term for a position beyond `k` and beyond the log. -/
def probe (k : Nat) (n : ClusterNode Value) : AppendRequest Value where
  term := n.state.term
  leaderId := n.config.nodeId
  prevLogIndex := max k n.log.length + 1
  prevLogTerm := 0
  entries := []
  leaderCommit := 0

/-- The probe is rejected with the length of the log it finds. -/
theorem observe_probe {k : Nat} {n m : ClusterNode Value} (hterm : m.state.term = n.state.term)
    (hlen : m.log.length ≤ n.log.length) :
    observe m (.handleAppend (probe k n)) = .inl (.appendResponse
      { term := n.state.term, success := false, matchIndex := m.log.length }) := by
  have hnone : m.log[max k n.log.length]? = none := List.getElem?_eq_none (by omega)
  have hlt : m.log.length < max k n.log.length + 1 := by omega
  simp [observe, ClusterNode.apply, ClusterNode.handleAppend, probe, hterm,
    ClusterNode.consistencyCheck, hnone, hlt]

theorem length_eq_of_transparent {n n' : ClusterNode Value} {k : Nat} (h : Transparent k n n')
    (hterm : n'.state.term = n.state.term) (hlen : n'.log.length ≤ n.log.length) :
    n'.log.length = n.log.length := by
  have hfollow : Follows k n (.handleAppend (probe k n)) :=
    Nat.lt_succ_of_le (le_max_left k n.log.length)
  have hobs := (h [.handleAppend (probe k n)] ⟨hfollow, trivial⟩).1
  simp only [observations, observe_probe rfl le_rfl, observe_probe hterm hlen] at hobs
  simpa using hobs.symm

theorem length_retainAbove_iff (log : List (ReplicatedEntry Value)) (k : Nat) :
    (ClusterNode.retainAbove log k).length = log.length ↔ ∀ e ∈ log, k < e.index := by
  unfold ClusterNode.retainAbove
  rw [List.length_filter_eq_length_iff]
  simp only [gt_iff_lt, decide_eq_true_eq]

theorem retainAbove_eq_self {log : List (ReplicatedEntry Value)} {k : Nat}
    (h : ∀ e ∈ log, k < e.index) : ClusterNode.retainAbove log k = log :=
  List.filter_eq_self.mpr fun e he => decide_eq_true (h e he)

theorem transparent_compactLog_iff (n : ClusterNode Value) (k : Nat) :
    Transparent k n (n.compactLog k).1 ↔ ∀ e ∈ n.log, k < e.index := by
  constructor
  · intro h
    rw [← length_retainAbove_iff]
    exact length_eq_of_transparent h rfl (List.length_filter_le _ _)
  · intro h
    refine transparent_of_forget ?_ k
    simp only [ClusterNode.compactLog, retainAbove_eq_self h]

/-- A vote request of term 0 is answered with the term of the node. -/
theorem term_eq_of_transparent {n n' : ClusterNode Value} {k : Nat} (h : Transparent k n n') :
    n'.state.term = n.state.term := by
  have answer : ∀ m : ClusterNode Value,
      (m.handleVoteRequest ⟨0, n.config.nodeId, 0, 0⟩).2.term = m.state.term := by
    intro m
    rcases Nat.eq_zero_or_pos m.state.term with h0 | hpos
    · rw [(ClusterNode.handleVoteRequest_term h0.le).2, h0]
    · rw [ClusterNode.handleVoteRequest_stale hpos]
  have hobs := (h [.handleVoteRequest ⟨0, n.config.nodeId, 0, 0⟩] ⟨trivial, trivial⟩).1
  simp only [observations, observe, ClusterNode.apply, List.cons.injEq, Sum.inl.injEq,
    NodeResult.voteResponse.injEq, and_true] at hobs
  rw [← answer n, ← answer n', hobs]

theorem transparent_handleInstallSnapshot_iff (n : ClusterNode Value)
    (req : InstallSnapshotRequest)
    (hcommit : req.snapshot.lastIncludedIndex ≤ n.state.commitIndex) :
    Transparent req.snapshot.lastIncludedIndex n (n.handleInstallSnapshot req).1 ↔
      req.term < n.state.term ∨ (req.term = n.state.term ∧
        ∀ e ∈ n.log, req.snapshot.lastIncludedIndex < e.index) := by
  rcases lt_trichotomy req.term n.state.term with hlt | heq | hgt
  · have hsame : (n.handleInstallSnapshot req).1 = n := by
      simp [ClusterNode.handleInstallSnapshot, hlt]
    rw [hsame]
    exact ⟨fun _ => Or.inl hlt, fun _ => transparent_of_forget rfl _⟩
  · obtain ⟨hlog, -⟩ := ClusterNode.handleInstallSnapshot_log heq.ge
    obtain ⟨hterm, -⟩ := n.handleInstallSnapshot_ballot req
    rw [heq, max_self] at hterm
    constructor
    · intro h
      refine Or.inr ⟨heq, ?_⟩
      rw [← length_retainAbove_iff, ← hlog]
      refine length_eq_of_transparent h hterm ?_
      rw [hlog]
      exact List.length_filter_le _ _
    · rintro (hlt | ⟨-, hkeep⟩)
      · omega
      · refine transparent_of_forget ?_ _
        have h : n.handleInstallSnapshot req = _ := if_neg heq.not_lt
        rw [h]
        dsimp only
        rw [ClusterNode.forget_touch, retainAbove_eq_self hkeep, if_neg heq.not_gt,
          max_eq_left hcommit]
        rfl
  · refine ⟨fun h => ?_, ?_⟩
    · have hterm := term_eq_of_transparent h
      rw [(n.handleInstallSnapshot_ballot req).1] at hterm
      omega
    · rintro (hlt | ⟨heq, -⟩) <;> omega

/-- **Compaction is seldom transparent.**  In every reachable state and for every committed
`k`, compacting at `k` goes unnoticed exactly when it removes no entry, and a snapshot at `k`
exactly when its term is stale, or is the node's own and the snapshot removes no entry. -/
theorem compaction_transparent_iff (config : ClusterConfig) (ops : List (NodeOp Value))
    (k : Nat) :
    let n := run ClusterNode.after (ClusterNode.new config) ops
    k ≤ n.state.commitIndex →
      (Transparent k n (n.compactLog k).1 ↔ ∀ e ∈ n.log, k < e.index) ∧
      ∀ req : InstallSnapshotRequest, req.snapshot.lastIncludedIndex = k →
        (Transparent k n (n.handleInstallSnapshot req).1 ↔
          req.term < n.state.term ∨
            (req.term = n.state.term ∧ ∀ e ∈ n.log, k < e.index)) := by
  intro n hk
  refine ⟨transparent_compactLog_iff n k, ?_⟩
  rintro req rfl
  exact transparent_handleInstallSnapshot_iff n req hk

/-- A leader of two nodes with two replicated entries. -/
def twoCommitted : List (NodeOp String) :=
  [.startElection, .becomeLeader, .appendEntry "t1" .alertCreated "a",
    .appendEntry "t2" .alertCreated "b", .handleAppendResponse ⟨"n2"⟩ ⟨1, true, 2⟩]

theorem compaction_transparent_iff_two :
    let n := run ClusterNode.after (ClusterNode.new ⟨⟨"n1"⟩, [⟨"n2"⟩], 50⟩) twoCommitted
    (Transparent 1 n (n.compactLog 1).1 ↔ ∀ e ∈ n.log, 1 < e.index) ∧
      ∀ req : InstallSnapshotRequest, req.snapshot.lastIncludedIndex = 1 →
        (Transparent 1 n (n.handleInstallSnapshot req).1 ↔
          req.term < n.state.term ∨ (req.term = n.state.term ∧ ∀ e ∈ n.log, 1 < e.index)) :=
  compaction_transparent_iff _ _ 1 (by decide)

/-- Compacting the first of the two committed entries makes the leader give its next
entry the index 2 instead of 3. -/
theorem compaction_not_transparent :
    let n := run ClusterNode.after (ClusterNode.new ⟨⟨"n1"⟩, [⟨"n2"⟩], 50⟩) twoCommitted
    1 ≤ n.state.commitIndex ∧ ¬ Transparent 1 n (n.compactLog 1).1 := by
  refine ⟨by decide, fun h => ?_⟩
  have hobs := (h [.appendEntry "t3" .alertCreated "c"] ⟨trivial, trivial⟩).1
  exact absurd hobs (by decide)

end Wardex.Cluster
