import Mathlib.Logic.Function.Basic
import Wardex.Cluster.Votes

/-! The cluster as a system: the nodes, the election round that each driver runs, and the
messages between them.  A message stays in the network once it was sent, so that it can
arrive late, more than once, or never. -/

namespace Wardex.Cluster

open Wardex.Lib

variable {Value : Type}

/-- The common membership list, and the batch size each node is configured with. -/
structure Membership where
  ids : List NodeId
  nodup : ids.Nodup
  batchSize : NodeId → Nat

namespace Membership

def peers (m : Membership) (id : NodeId) : List NodeId := m.ids.filter fun p => p ≠ id

def config (m : Membership) (id : NodeId) : ClusterConfig :=
  { nodeId := id, peers := m.peers id, replicationBatchSize := m.batchSize id }

end Membership

/-- The driver's local variables during an election: the peers not yet asked, the one that
is being asked first. -/
structure ElectionRound where
  request : VoteRequest
  votes : Nat
  pending : List NodeId
deriving DecidableEq

/-- A response to a vote request comes back on the connection of its request.  With an append
request goes `source`, the sender's log at that moment; no handler reads it. -/
inductive Message (Value : Type) where
  | voteRequest (src dst : NodeId) (req : VoteRequest)
  | voteResponse (src dst : NodeId) (req : VoteRequest) (resp : VoteResponse)
  | appendRequest (src dst : NodeId) (req : AppendRequest Value)
    (source : List (ReplicatedEntry Value))
  | appendResponse (src dst : NodeId) (resp : AppendResponse)
  | installSnapshot (src dst : NodeId) (req : InstallSnapshotRequest)

/-- Besides the system's own state, each node comes with the votes it has given, and the
promotions are recorded with their terms. -/
structure System (Value : Type) where
  voters : NodeId → VoteHistory Value
  rounds : NodeId → Option ElectionRound
  network : List (Message Value)
  promotions : List (NodeId × Nat)

inductive Event (Value : Type) where
  | startElection (i : NodeId)
  | sendVoteRequest (i : NodeId)
  | voteRpcFailed (i : NodeId)
  | finishElection (i : NodeId)
  | appendEntry (i : NodeId) (now : String) (entryType : EntryType) (data : Value)
  | sendAppend (i peer : NodeId)
  | appendRpcFailed (i peer : NodeId)
  | sendSnapshot (i peer : NodeId)
  | compactLog (i : NodeId) (upToIndex : Nat)
  | deliver (k : Nat)

namespace System

def new (m : Membership) : System Value where
  voters := fun id => VoteHistory.new (m.config id)
  rounds := fun _ => none
  network := []
  promotions := []

def node (s : System Value) (i : NodeId) : ClusterNode Value := (s.voters i).node

def votes (s : System Value) (i : NodeId) : Set (Nat × NodeId) := (s.voters i).voteSet

/-- A call of one node's method. -/
def call (s : System Value) (i : NodeId) (op : NodeOp Value) : System Value :=
  { s with voters := Function.update s.voters i ((s.voters i).step op) }

def send (s : System Value) (msg : Message Value) : System Value :=
  { s with network := s.network ++ [msg] }

def setRound (s : System Value) (i : NodeId) (round : Option ElectionRound) : System Value :=
  { s with rounds := Function.update s.rounds i round }

/-- `config.peers.len().div_ceil(2) + 1`. -/
def majority (m : Membership) (i : NodeId) : Nat := ((m.peers i).length + 1) / 2 + 1

/-! ## Steps of the driver -/

def startElection (m : Membership) (s : System Value) (i : NodeId) : System Value :=
  if i ∈ m.ids ∧ m.peers i ≠ [] ∧ s.rounds i = none ∧ (s.node i).state.role ≠ .leader then
    (s.call i .startElection).setRound i
      (some { request := (s.node i).startElection.2, votes := 1, pending := m.peers i })
  else s

def sendVoteRequest (s : System Value) (i : NodeId) : System Value :=
  match s.rounds i with
  | some { request := req, pending := peer :: _, .. } => s.send (.voteRequest i peer req)
  | _ => s

def voteRpcFailed (s : System Value) (i : NodeId) : System Value :=
  match s.rounds i with
  | some { request := req, votes := votes, pending := peer :: rest } =>
    (s.call i (.markPeerUnreachable peer)).setRound i
      (some { request := req, votes := votes, pending := rest })
  | _ => s

/-- The tally after the last peer.  Nothing is asked about the node's present term or role. -/
def finishElection (m : Membership) (s : System Value) (i : NodeId) : System Value :=
  match s.rounds i with
  | some { votes := votes, pending := [], .. } =>
    if votes ≥ majority m i then
      { (s.call i .becomeLeader).setRound i none with
        promotions := s.promotions ++ [(i, (s.node i).state.term)] }
    else s.setRound i none
  | _ => s

def sendAppend (s : System Value) (i peer : NodeId) : System Value :=
  match (s.node i).prepareAppend peer with
  | some req => s.send (.appendRequest i peer req (s.node i).log)
  | none => s

/-- Only a leader replicates its snapshot, under its own term. -/
def sendSnapshot (s : System Value) (i peer : NodeId) : System Value :=
  match (s.node i).state.role, (s.node i).createSnapshot with
  | .leader, some snapshot => s.send (.installSnapshot i peer
      { term := (s.node i).state.term, leaderId := i, snapshot := snapshot })
  | _, _ => s

/-! ## Arrivals -/

def receiveVote (s : System Value) (src dst : NodeId) (req : VoteRequest)
    (resp : VoteResponse) : System Value :=
  match s.rounds dst with
  | some { request := request, votes := votes, pending := peer :: rest } =>
    if peer = src ∧ request = req then
      let votes := if resp.voteGranted then votes + 1 else votes
      s.setRound dst (some { request := request, votes := votes, pending := rest })
    else s
  | _ => s

def receive (s : System Value) : Message Value → System Value
  | .voteRequest src dst req =>
    (s.call dst (.handleVoteRequest req)).send
      (.voteResponse dst src req ((s.node dst).handleVoteRequest req).2)
  | .voteResponse src dst req resp => s.receiveVote src dst req resp
  | .appendRequest src dst req _ =>
    (s.call dst (.handleAppend req)).send
      (.appendResponse dst src ((s.node dst).handleAppend req).2)
  | .appendResponse src dst resp => s.call dst (.handleAppendResponse src resp)
  | .installSnapshot _ dst req => s.call dst (.handleInstallSnapshot req)

def step (m : Membership) (s : System Value) : Event Value → System Value
  | .startElection i => s.startElection m i
  | .sendVoteRequest i => s.sendVoteRequest i
  | .voteRpcFailed i => s.voteRpcFailed i
  | .finishElection i => s.finishElection m i
  | .appendEntry i now entryType data => s.call i (.appendEntry now entryType data)
  | .sendAppend i peer => s.sendAppend i peer
  | .appendRpcFailed i peer => s.call i (.markPeerUnreachable peer)
  | .sendSnapshot i peer => s.sendSnapshot i peer
  | .compactLog i upToIndex => s.call i (.compactLog upToIndex)
  | .deliver k =>
    match s.network[k]? with
    | some msg => s.receive msg
    | none => s

/-! ## Frame lemmas -/

theorem call_voters_self (s : System Value) (i : NodeId) (op : NodeOp Value) :
    (s.call i op).voters i = (s.voters i).step op := Function.update_self ..

theorem call_voters_ne (s : System Value) {i j : NodeId} (h : j ≠ i) (op : NodeOp Value) :
    (s.call i op).voters j = s.voters j := Function.update_of_ne h ..

theorem setRound_rounds_self (s : System Value) (i : NodeId) (r : Option ElectionRound) :
    (s.setRound i r).rounds i = r := Function.update_self ..

theorem setRound_rounds_ne (s : System Value) {i j : NodeId} (h : j ≠ i)
    (r : Option ElectionRound) : (s.setRound i r).rounds j = s.rounds j :=
  Function.update_of_ne h ..

end System

end Wardex.Cluster
