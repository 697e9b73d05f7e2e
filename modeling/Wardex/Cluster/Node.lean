import Mathlib.Algebra.Group.Nat.Defs
import Mathlib.Data.List.Basic
import Wardex.Lib.Run

/-! The cluster node: its configuration, its replicated log, its view of the peers,
and the handlers that read and change them.  Clock readings only feed timers and
status pages, so the deadline and contact times are left out; a timer firing is an
event of the environment.  The operations of a node are values, so that sequences of calls can be
quantified over. -/

namespace Wardex.Cluster

structure NodeId where
  name : String
deriving DecidableEq, Repr

/-- `peers` keeps the node ids of the configured peers; their addresses only build URLs. -/
structure ClusterConfig where
  nodeId : NodeId
  peers : List NodeId
  replicationBatchSize : Nat
deriving DecidableEq, Repr

inductive NodeRole where
  | follower
  | candidate
  | leader
deriving DecidableEq, Repr

structure NodeState where
  role : NodeRole
  term : Nat
  votedFor : Option NodeId
  leaderId : Option NodeId
  commitIndex : Nat
deriving DecidableEq, Repr

inductive EntryType where
  | alertCreated
  | incidentCreated
  | incidentUpdated
  | policyUpdated
  | configUpdated
  | agentRegistered
  | agentDeregistered
deriving DecidableEq, Repr

/-- `Value` is the payload type, a JSON document that no handler looks into. -/
structure ReplicatedEntry (Value : Type) where
  index : Nat
  term : Nat
  timestamp : String
  entryType : EntryType
  data : Value
deriving DecidableEq, Repr

structure VoteRequest where
  term : Nat
  candidateId : NodeId
  lastLogIndex : Nat
  lastLogTerm : Nat
deriving DecidableEq, Repr

structure VoteResponse where
  term : Nat
  voteGranted : Bool
deriving DecidableEq, Repr

structure AppendRequest (Value : Type) where
  term : Nat
  leaderId : NodeId
  prevLogIndex : Nat
  prevLogTerm : Nat
  entries : List (ReplicatedEntry Value)
  leaderCommit : Nat
deriving DecidableEq, Repr

structure AppendResponse where
  term : Nat
  success : Bool
  matchIndex : Nat
deriving DecidableEq, Repr

/-- The snapshot's document, creation time and size are not read by the receiver. -/
structure Snapshot where
  lastIncludedIndex : Nat
  lastIncludedTerm : Nat
deriving DecidableEq, Repr

structure InstallSnapshotRequest where
  term : Nat
  leaderId : NodeId
  snapshot : Snapshot
deriving DecidableEq, Repr

structure InstallSnapshotResponse where
  term : Nat
  success : Bool
deriving DecidableEq, Repr

structure PeerStatus where
  reachable : Bool
  matchIndex : Nat
  nextIndex : Nat
deriving DecidableEq, Repr

/-! ## Machine integers

Terms and indices are `u64` values kept as `Nat`.  A release build wraps on overflow,
and the two places where a received value meets an addition say so. -/

def u64Max : Nat := 2 ^ 64 - 1

def wrappingAdd (a b : Nat) : Nat := (a + b) % 2 ^ 64

def wrappingSub (a b : Nat) : Nat := (a + 2 ^ 64 - b) % 2 ^ 64

/-! ## The peer table -/

/-- `HashMap<NodeId, PeerStatus>` as the list of its entries, one for each key. -/
abbrev PeerTable := List (NodeId × PeerStatus)

namespace PeerTable

def get (t : PeerTable) (id : NodeId) : Option PeerStatus := t.lookup id

/-- `if let Some(status) = peer_status.get_mut(id) { .. }`. -/
def modify (t : PeerTable) (id : NodeId) (f : PeerStatus → PeerStatus) : PeerTable :=
  t.map fun p => if p.1 = id then (p.1, f p.2) else p

def insert (t : PeerTable) (id : NodeId) (s : PeerStatus) : PeerTable :=
  if (t.map Prod.fst).contains id then t.modify id fun _ => s else t ++ [(id, s)]

end PeerTable

/-! ## The node -/

structure ClusterNode (Value : Type) where
  config : ClusterConfig
  state : NodeState
  log : List (ReplicatedEntry Value)
  peerStatus : PeerTable
deriving DecidableEq, Repr

variable {Value : Type}

namespace ClusterNode

def new (config : ClusterConfig) : ClusterNode Value where
  config := config
  state :=
    { role := .follower, term := 0, votedFor := none, leaderId := none, commitIndex := 0 }
  log := []
  peerStatus := config.peers.foldl
    (fun t p => t.insert p { reachable := false, matchIndex := 0, nextIndex := 1 }) []

/-- `status.reachable = true` for a peer that has just been heard of. -/
def touch (n : ClusterNode Value) (id : NodeId) : ClusterNode Value :=
  { n with peerStatus := n.peerStatus.modify id fun s => { s with reachable := true } }

def markPeerUnreachable (n : ClusterNode Value) (id : NodeId) : ClusterNode Value :=
  { n with peerStatus := n.peerStatus.modify id fun s => { s with reachable := false } }

/-! ### Election -/

/-- Index and term of the last entry, as `start_election` reports them. -/
def lastLog (log : List (ReplicatedEntry Value)) : Nat × Nat :=
  match log.getLast? with
  | some last => (last.index, last.term)
  | none => (0, 0)

def startElection (n : ClusterNode Value) : ClusterNode Value × VoteRequest :=
  let term := wrappingAdd n.state.term 1
  let state := { n.state with
    term := term, role := .candidate, leaderId := none, votedFor := some n.config.nodeId }
  let (lastIndex, lastTerm) := lastLog n.log
  ({ n with state := state },
    { term := term, candidateId := n.config.nodeId,
      lastLogIndex := lastIndex, lastLogTerm := lastTerm })

/-- The candidate's log is at least as up to date as the voter's. -/
def lastLogOk (log : List (ReplicatedEntry Value)) (req : VoteRequest) : Bool :=
  match log.getLast? with
  | some last =>
    req.lastLogTerm > last.term ||
      (req.lastLogTerm == last.term && req.lastLogIndex ≥ last.index)
  | none => true

def handleVoteRequest (n : ClusterNode Value) (req : VoteRequest) :
    ClusterNode Value × VoteResponse :=
  if req.term < n.state.term then
    (n, { term := n.state.term, voteGranted := false })
  else
    let state := if req.term > n.state.term then
      { n.state with term := req.term, role := .follower, leaderId := none, votedFor := none }
      else n.state
    let canVote := state.votedFor.isNone || state.votedFor == some req.candidateId
    let granted := canVote && lastLogOk n.log req
    let state := if granted then { state with votedFor := some req.candidateId } else state
    (touch { n with state := state } req.candidateId,
      { term := state.term, voteGranted := granted })

def becomeLeader (n : ClusterNode Value) : ClusterNode Value :=
  { n with
    state := { n.state with role := .leader, leaderId := some n.config.nodeId }
    peerStatus := n.peerStatus.map fun p =>
      (p.1, { p.2 with nextIndex := n.log.length + 1, matchIndex := 0 }) }

/-! ### Log replication -/

def appendEntry (n : ClusterNode Value) (now : String) (entryType : EntryType) (data : Value) :
    ClusterNode Value × Option Nat :=
  if n.state.role ≠ .leader then (n, none)
  else
    let index := n.log.length + 1
    ({ n with log := n.log ++
        [{ index := index, term := n.state.term, timestamp := now,
           entryType := entryType, data := data }] },
      some index)

/-- The check of `prev_log_index` and `prev_log_term`: `some log` is the log left behind
by a rejection. -/
def consistencyCheck (log : List (ReplicatedEntry Value)) (prevLogIndex prevLogTerm : Nat) :
    Option (List (ReplicatedEntry Value)) :=
  if prevLogIndex > 0 then
    match log[prevLogIndex - 1]? with
    | some entry =>
      if entry.term ≠ prevLogTerm then some (log.take (prevLogIndex - 1)) else none
    | none => if prevLogIndex > log.length then some log else none
  else none

/-- The loop over `req.entries`; `false` is an early rejection (index 0 or a gap). -/
def appendEntries (log : List (ReplicatedEntry Value)) :
    List (ReplicatedEntry Value) → List (ReplicatedEntry Value) × Bool
  | [] => (log, true)
  | entry :: rest =>
    if entry.index = 0 then (log, false)
    else
      let idx := entry.index - 1
      match log[idx]? with
      | some old =>
        if old.term ≠ entry.term then appendEntries (log.take idx ++ [entry]) rest
        else appendEntries log rest
      | none =>
        if idx = log.length then appendEntries (log ++ [entry]) rest else (log, false)

/-- Accepting the sender as leader of its term: note that `voted_for` stays as it is. -/
def acceptLeader (n : ClusterNode Value) (term : Nat) (leaderId : NodeId) : ClusterNode Value :=
  touch { n with state :=
    { n.state with term := term, role := .follower, leaderId := some leaderId } } leaderId

def handleAppend (n : ClusterNode Value) (req : AppendRequest Value) :
    ClusterNode Value × AppendResponse :=
  if req.term < n.state.term then
    (n, { term := n.state.term, success := false, matchIndex := 0 })
  else
    let n := n.acceptLeader req.term req.leaderId
    match consistencyCheck n.log req.prevLogIndex req.prevLogTerm with
    | some log =>
      ({ n with log := log },
        { term := n.state.term, success := false, matchIndex := log.length })
    | none =>
      match appendEntries n.log req.entries with
      | (log, false) =>
        ({ n with log := log },
          { term := n.state.term, success := false, matchIndex := log.length })
      | (log, true) =>
        let commitIndex := if req.leaderCommit > n.state.commitIndex then
          min req.leaderCommit log.length else n.state.commitIndex
        ({ n with log := log, state := { n.state with commitIndex := commitIndex } },
          { term := n.state.term, success := true, matchIndex := log.length })

def prepareAppend (n : ClusterNode Value) (peerId : NodeId) : Option (AppendRequest Value) :=
  if n.state.role ≠ .leader then none
  else do
    let status ← n.peerStatus.get peerId
    let next := status.nextIndex
    let (prevIndex, prevTerm) ←
      if next > 1 then (n.log[next - 2]?).map fun prev => (prev.index, prev.term)
      else some (0, 0)
    return {
      term := n.state.term
      leaderId := n.config.nodeId
      prevLogIndex := prevIndex
      prevLogTerm := prevTerm
      entries := (n.log.drop (wrappingSub next 1)).take n.config.replicationBatchSize
      leaderCommit := n.state.commitIndex }

/-- How many nodes hold position `i`: this one and the peers known to match it. -/
def replicatedAt (n : ClusterNode Value) (i : Nat) : Nat :=
  1 + (n.peerStatus.filter fun p => p.2.matchIndex ≥ i).length

/-- The body of the commit loop at position `i`; the `none` branch is its `break`. -/
def commitStep (n : ClusterNode Value) (commit i : Nat) : Nat :=
  let totalNodes := n.peerStatus.length + 1
  let majority := totalNodes / 2 + 1
  match n.log[i - 1]? with
  | some entry =>
    if entry.term ≠ n.state.term then commit
    else if n.replicatedAt i ≥ majority then i else commit
  | none => commit

/-- The loop runs over `commit_index + 1 ..= log.len()`; with `commit_index = u64::MAX` the
source starts at 0 and breaks at once, which is the empty range here. -/
def tryAdvanceCommit (n : ClusterNode Value) : ClusterNode Value :=
  let indices := List.range' (n.state.commitIndex + 1) (n.log.length - n.state.commitIndex)
  { n with state :=
    { n.state with commitIndex := indices.foldl n.commitStep n.state.commitIndex } }

/-- What a response changes in the status of the peer that sent it. -/
def recordResponse (status : PeerStatus) (resp : AppendResponse) : PeerStatus :=
  if resp.success then
    { reachable := true, matchIndex := resp.matchIndex,
      nextIndex := wrappingAdd resp.matchIndex 1 }
  else if status.nextIndex > 1 then
    { status with reachable := true, nextIndex := status.nextIndex - 1 }
  else { status with reachable := true }

def recordPeer (n : ClusterNode Value) (peerId : NodeId) (resp : AppendResponse) :
    ClusterNode Value :=
  { n with peerStatus := n.peerStatus.modify peerId fun status => recordResponse status resp }

def handleAppendResponse (n : ClusterNode Value) (peerId : NodeId) (resp : AppendResponse) :
    ClusterNode Value :=
  if resp.term > n.state.term then
    { n with state := { n.state with term := resp.term, role := .follower, leaderId := none } }
  else if (n.peerStatus.get peerId).isNone then n
  else
    tryAdvanceCommit (n.recordPeer peerId resp)

/-! ### Snapshots and compaction -/

def createSnapshot (n : ClusterNode Value) : Option Snapshot :=
  if n.state.commitIndex = 0 then none
  else
    let committed := n.log.filter fun e => e.index ≤ n.state.commitIndex
    committed.getLast?.map fun last =>
      { lastIncludedIndex := last.index, lastIncludedTerm := last.term }

/-- `log.retain(|e| e.index > index)`. -/
def retainAbove (log : List (ReplicatedEntry Value)) (index : Nat) :
    List (ReplicatedEntry Value) := log.filter fun e => e.index > index

def handleInstallSnapshot (n : ClusterNode Value) (req : InstallSnapshotRequest) :
    ClusterNode Value × InstallSnapshotResponse :=
  if req.term < n.state.term then
    (n, { term := n.state.term, success := false })
  else
    let state := if req.term > n.state.term then
      { n.state with term := req.term, role := .follower, votedFor := none } else n.state
    let state := { state with
      commitIndex := max state.commitIndex req.snapshot.lastIncludedIndex
      leaderId := some req.leaderId }
    (touch { n with state := state, log := retainAbove n.log req.snapshot.lastIncludedIndex }
        req.leaderId,
      { term := state.term, success := true })

def compactLog (n : ClusterNode Value) (upToIndex : Nat) : ClusterNode Value × Nat :=
  let log := retainAbove n.log upToIndex
  ({ n with log := log }, n.log.length - log.length)

end ClusterNode

/-! ## Operations -/

inductive NodeOp (Value : Type) where
  | startElection
  | handleVoteRequest (req : VoteRequest)
  | becomeLeader
  | appendEntry (now : String) (entryType : EntryType) (data : Value)
  | handleAppend (req : AppendRequest Value)
  | prepareAppend (peerId : NodeId)
  | handleAppendResponse (peerId : NodeId) (resp : AppendResponse)
  | handleInstallSnapshot (req : InstallSnapshotRequest)
  | compactLog (upToIndex : Nat)
  | markPeerUnreachable (peerId : NodeId)

/-- What a call returns. -/
inductive NodeResult (Value : Type) where
  | unit
  | voteRequest (req : VoteRequest)
  | voteResponse (resp : VoteResponse)
  | index (index : Option Nat)
  | appendRequest (req : Option (AppendRequest Value))
  | appendResponse (resp : AppendResponse)
  | snapshotResponse (resp : InstallSnapshotResponse)
  | removed (count : Nat)
deriving DecidableEq

namespace PeerTable

/-- A change of every status, each under its key, seen at one key. -/
theorem get_map (t : PeerTable) (g : NodeId → PeerStatus → PeerStatus) (id : NodeId) :
    get (t.map fun p => (p.1, g p.1 p.2)) id = (t.get id).map (g id) := by
  induction t with
  | nil => rfl
  | cons p t ih =>
    obtain ⟨key, s⟩ := p
    by_cases h : id = key
    · simp [get, h]
    · have hb : (id == key) = false := beq_false_of_ne h
      simpa [get, List.lookup_cons, hb] using ih

theorem get_modify (t : PeerTable) (id : NodeId) (f : PeerStatus → PeerStatus) :
    (t.modify id f).get id = (t.get id).map f := by
  have h : t.modify id f = t.map fun p => (p.1, if p.1 = id then f p.2 else p.2) :=
    List.map_congr_left fun p _ => by split_ifs <;> rfl
  rw [h, get_map t (fun key s => if key = id then f s else s)]
  simp

end PeerTable

namespace ClusterNode

def apply (n : ClusterNode Value) : NodeOp Value → ClusterNode Value × NodeResult Value
  | .startElection => (n.startElection.1, .voteRequest n.startElection.2)
  | .handleVoteRequest req =>
    ((n.handleVoteRequest req).1, .voteResponse (n.handleVoteRequest req).2)
  | .becomeLeader => (n.becomeLeader, .unit)
  | .appendEntry now entryType data =>
    ((n.appendEntry now entryType data).1, .index (n.appendEntry now entryType data).2)
  | .handleAppend req => ((n.handleAppend req).1, .appendResponse (n.handleAppend req).2)
  | .prepareAppend peerId => (n, .appendRequest (n.prepareAppend peerId))
  | .handleAppendResponse peerId resp => (n.handleAppendResponse peerId resp, .unit)
  | .handleInstallSnapshot req =>
    ((n.handleInstallSnapshot req).1, .snapshotResponse (n.handleInstallSnapshot req).2)
  | .compactLog upToIndex => ((n.compactLog upToIndex).1, .removed (n.compactLog upToIndex).2)
  | .markPeerUnreachable peerId => (n.markPeerUnreachable peerId, .unit)

/-- The node after one call. -/
def after (n : ClusterNode Value) (op : NodeOp Value) : ClusterNode Value := (n.apply op).1

/-! ## Frame lemmas -/

@[simp] theorem touch_state (n : ClusterNode Value) (id : NodeId) :
    (n.touch id).state = n.state := rfl

@[simp] theorem tryAdvanceCommit_peerStatus (n : ClusterNode Value) :
    n.tryAdvanceCommit.peerStatus = n.peerStatus := rfl

@[simp] theorem acceptLeader_log (n : ClusterNode Value) (term : Nat) (id : NodeId) :
    (n.acceptLeader term id).log = n.log := rfl

@[simp] theorem acceptLeader_term (n : ClusterNode Value) (term : Nat) (id : NodeId) :
    (n.acceptLeader term id).state.term = term := rfl

@[simp] theorem acceptLeader_commitIndex (n : ClusterNode Value) (term : Nat) (id : NodeId) :
    (n.acceptLeader term id).state.commitIndex = n.state.commitIndex := rfl

/-! ## What `handle_append` can do -/

theorem consistencyCheck_some {log log' : List (ReplicatedEntry Value)} {p t : Nat}
    (h : consistencyCheck log p t = some log') :
    0 < p ∧ ((log' = log ∧ log.length < p) ∨
      ∃ old, log[p - 1]? = some old ∧ old.term ≠ t ∧ log' = log.take (p - 1)) := by
  unfold consistencyCheck at h
  split at h
  · next hp =>
    refine ⟨hp, ?_⟩
    split at h
    · next old hold =>
      split_ifs at h with ht
      exact Or.inr ⟨old, hold, ht, (Option.some.inj h).symm⟩
    · split_ifs at h with hlen
      exact Or.inl ⟨(Option.some.inj h).symm, hlen⟩
  · cases h

/-- The four ways through `handle_append`: a stale term, a failed consistency check, a
rejected entry, and success. -/
theorem handleAppend_cases (n : ClusterNode Value) (req : AppendRequest Value) :
    (req.term < n.state.term ∧ n.handleAppend req =
      (n, { term := n.state.term, success := false, matchIndex := 0 })) ∨
    (n.state.term ≤ req.term ∧ ∃ log,
      consistencyCheck n.log req.prevLogIndex req.prevLogTerm = some log ∧
      n.handleAppend req = ({ n.acceptLeader req.term req.leaderId with log := log },
        { term := req.term, success := false, matchIndex := log.length })) ∨
    (n.state.term ≤ req.term ∧
      consistencyCheck n.log req.prevLogIndex req.prevLogTerm = none ∧ ∃ log,
      appendEntries n.log req.entries = (log, false) ∧
      n.handleAppend req = ({ n.acceptLeader req.term req.leaderId with log := log },
        { term := req.term, success := false, matchIndex := log.length })) ∨
    (n.state.term ≤ req.term ∧
      consistencyCheck n.log req.prevLogIndex req.prevLogTerm = none ∧ ∃ log,
      appendEntries n.log req.entries = (log, true) ∧
      n.handleAppend req = ({ n.acceptLeader req.term req.leaderId with
          log := log
          state := { (n.acceptLeader req.term req.leaderId).state with
            commitIndex := if req.leaderCommit > n.state.commitIndex then
              min req.leaderCommit log.length else n.state.commitIndex } },
        { term := req.term, success := true, matchIndex := log.length })) := by
  unfold handleAppend
  by_cases hlt : req.term < n.state.term
  · exact Or.inl ⟨hlt, if_pos hlt⟩
  · rw [if_neg hlt]
    have hle : n.state.term ≤ req.term := not_lt.mp hlt
    right
    dsimp only [acceptLeader_log, acceptLeader_term]
    cases hc : consistencyCheck n.log req.prevLogIndex req.prevLogTerm with
    | some log => exact Or.inl ⟨hle, log, rfl, rfl⟩
    | none =>
      right
      rcases ha : appendEntries n.log req.entries with ⟨log, _ | _⟩
      · exact Or.inl ⟨hle, rfl, log, rfl, rfl⟩
      · exact Or.inr ⟨hle, rfl, log, rfl, rfl⟩

end ClusterNode

end Wardex.Cluster
