import Wardex.Cluster.Commit
import Wardex.Cluster.Election
import Wardex.Cluster.Log
import Wardex.Lib.Protocol

/-! How the cluster relates to the replication protocol: which replicas a state of the system
stands for, and what its messages have promised. -/

namespace Wardex.Cluster

open Wardex.Lib

variable {Value : Type}

/-- The protocol for the members, with the entries of the cluster. -/
abbrev Logs (Value : Type) := Replicas NodeId (ReplicatedEntry Value)

def Membership.universe (m : Membership) : Finset NodeId := m.ids.toFinset

namespace Logs

abbrev Inv (m : Membership) (r : Logs Value) : Prop :=
  Replicas.Inv ReplicatedEntry.term m.universe r

abbrev Steps (m : Membership) (r r' : Logs Value) : Prop :=
  Replicas.Steps ReplicatedEntry.term m.universe r r'

abbrev Extends (r r' : Logs Value) : Prop := Replicas.Extends ReplicatedEntry.term r r'

abbrev Committed (m : Membership) (r : Logs Value) (t p : Nat) : Prop :=
  Replicas.Committed ReplicatedEntry.term m.universe r t p

abbrev Sourced (r : Logs Value) (l : List (ReplicatedEntry Value)) : Prop :=
  r.history.Sourced ReplicatedEntry.term l

/-- The leaders' logs are numbered as the code numbers them, and fit a vector. -/
def Indexed (r : Logs Value) : Prop :=
  ∀ t, IndexedFrom 0 (r.history.canon t) ∧ (r.history.canon t).length < u64Max

end Logs

/-! ## The relation -/

section Relation

variable (m : Membership) (r : Logs Value)

structure Leading (i : NodeId) (n : ClusterNode Value) : Prop where
  member : i ∈ m.ids
  own : n.log.length ≤ (r.replica i).ack n.state.term
  next : ∀ p ∈ n.peerStatus, 1 ≤ p.2.nextIndex
  matched : ∀ p ∈ n.peerStatus, p.2.matchIndex ≤ (r.replica p.1).ack n.state.term

structure NodeSim (i : NodeId) (h : VoteHistory Value) : Prop where
  term : h.node.state.term = (r.replica i).term
  log : h.node.log = (r.replica i).log
  commit : h.node.state.commitIndex = (r.replica i).commit
  votes : h.voteSet = (r.replica i).votes
  keys : h.node.peerStatus.map Prod.fst = m.peers i
  leading : h.node.state.role = .leader → Leading m r i h.node

/-- A vote request describes the log with which its sender became a candidate. -/
def Describes (src : NodeId) (req : VoteRequest) : Prop :=
  ∃ l, r.candidacy src req.term = some l ∧
    ClusterNode.lastLog l = (req.lastLogIndex, req.lastLogTerm)

/-- A round of an earlier candidacy than any leadership of its node. -/
structure RoundSim (i : NodeId) (round : ElectionRound) : Prop where
  member : i ∈ m.ids
  term_le : round.request.term ≤ (r.replica i).term
  describes : Describes r i round.request
  unled : ∀ t, r.history.leader t = some i → t < round.request.term

/-- An append request carries a slice of its sender's log, and a commit index that is backed
by commitments of its term or earlier. -/
structure Sliced (src dst : NodeId) (req : AppendRequest Value)
    (source : List (ReplicatedEntry Value)) : Prop where
  leader : r.history.leader req.term = some src
  ne : src ≠ dst
  canon : source <+: r.history.canon req.term
  prev_le : req.prevLogIndex ≤ source.length
  prev_term : req.prevLogTerm = termBefore source req.prevLogIndex
  entries : req.entries <+: source.drop req.prevLogIndex
  commit_le : req.leaderCommit ≤ source.length
  commit : req.leaderCommit = 0 ∨ ∃ t p, Logs.Committed m r t p ∧ t ≤ req.term ∧
    req.leaderCommit ≤ p + 1 ∧ source.take req.leaderCommit <+: r.history.canon t

def MessageSim : Message Value → Prop
  | .voteRequest src _ req => Describes r src req
  | .voteResponse .. => True
  | .appendRequest src dst req source => Sliced m r src dst req source
  | .appendResponse src _ resp => resp.matchIndex < u64Max ∧
    (resp.success = true → resp.matchIndex ≤ (r.replica src).ack resp.term)
  | .installSnapshot .. => False

structure Sim (s : System Value) : Prop where
  indexed : Logs.Indexed r
  leaders : ∀ t i, r.history.leader t = some i ↔ (i, t) ∈ s.promotions
  nodes : ∀ i, NodeSim m r i (s.voters i)
  rounds : ∀ i round, s.rounds i = some round → RoundSim m r i round
  messages : ∀ msg ∈ s.network, MessageSim m r msg

end Relation

/-! ## What survives a step of the protocol -/

section Mono

variable {m : Membership} {r r' : Logs Value}

theorem Leading.mono (he : Logs.Extends r r') {i : NodeId} {n : ClusterNode Value}
    (h : Leading m r i n) : Leading m r' i n where
  member := h.member
  own := h.own.trans (he.ack i _)
  next := h.next
  matched := fun p hp => (h.matched p hp).trans (he.ack p.1 _)

theorem NodeSim.mono (he : Logs.Extends r r') {i : NodeId} (hsame : r'.replica i = r.replica i)
    {h : VoteHistory Value} (hn : NodeSim m r i h) : NodeSim m r' i h where
  term := hsame ▸ hn.term
  log := hsame ▸ hn.log
  commit := hsame ▸ hn.commit
  votes := hsame ▸ hn.votes
  keys := hn.keys
  leading := fun hrole => (hn.leading hrole).mono he

theorem Describes.mono (he : Logs.Extends r r') {src : NodeId} {req : VoteRequest}
    (h : Describes r src req) : Describes r' src req := by
  obtain ⟨l, hl, hlast⟩ := h
  exact ⟨l, he.candidacy src _ l hl, hlast⟩

theorem RoundSim.mono (he : Logs.Extends r r') {i : NodeId} {round : ElectionRound}
    (hterm : (r.replica i).term ≤ (r'.replica i).term)
    (hlead : ∀ t, r'.history.leader t = some i → r.history.leader t = some i)
    (h : RoundSim m r i round) : RoundSim m r' i round where
  member := h.member
  term_le := h.term_le.trans hterm
  describes := h.describes.mono he
  unled := fun t ht => h.unled t (hlead t ht)

theorem MessageSim.mono (he : Logs.Extends r r') {msg : Message Value} (h : MessageSim m r msg) :
    MessageSim m r' msg := by
  cases msg with
  | voteRequest src dst req => exact Describes.mono he h
  | voteResponse src dst req resp => trivial
  | appendRequest src dst req source =>
    exact { h with
      leader := he.history.leader _ _ h.leader
      canon := h.canon.trans (he.history.canon _)
      commit := by
        refine h.commit.imp_right ?_
        rintro ⟨t, p, hC, ht, hp, hpre⟩
        exact ⟨t, p, he.committed hC, ht, hp, hpre.trans (he.history.canon t)⟩ }
  | appendResponse src dst resp => exact ⟨h.1, fun hs => (h.2 hs).trans (he.ack src _)⟩
  | installSnapshot src dst req => exact h

end Mono

/-! ## Logs of the replicas -/

section Logs

variable {m : Membership} {r : Logs Value} {l : List (ReplicatedEntry Value)}

theorem indexed_of_sourced (h : Logs.Indexed r)
    (hl : Logs.Sourced r l) : IndexedFrom 0 l := by
  intro p e he
  have hpre := hl p e he
  have htake : (l.take (p + 1))[p]? = some e := by
    rw [List.getElem?_take_of_lt p.lt_succ_self, he]
  exact (h e.term).1 p e (prefix_getElem?_some hpre htake)

theorem length_lt_of_sourced (h : Logs.Indexed r)
    (hl : Logs.Sourced r l) : l.length < u64Max := by
  cases hlast : l.getLast? with
  | none =>
    rw [List.getLast?_eq_none_iff.mp hlast]
    exact (by decide : 0 < u64Max)
  | some e =>
    have hpre := hl.isPrefix_of_getLast? hlast
    exact hpre.length_le.trans_lt (h e.term).2

theorem index_of_getLast? (h : IndexedFrom 0 l) {e : ReplicatedEntry Value}
    (he : l.getLast? = some e) : e.index = l.length := by
  have hne : l ≠ [] := by
    rintro rfl
    cases he
  have hpos := List.length_pos_iff.mpr hne
  rw [List.getLast?_eq_getElem?] at he
  have hidx := h _ e he
  omega

/-- The comparison of last entries in `handle_vote_request`. -/
theorem upToDate_of_lastLogOk {log : List (ReplicatedEntry Value)} (hl : IndexedFrom 0 l)
    (hlog : IndexedFrom 0 log) {req : VoteRequest}
    (hreq : ClusterNode.lastLog l = (req.lastLogIndex, req.lastLogTerm))
    (hok : ClusterNode.lastLogOk log req = true) :
    LogHistory.UpToDate ReplicatedEntry.term l log := by
  intro a ha
  have hindex := index_of_getLast? hlog ha
  simp only [ClusterNode.lastLogOk, ha, Bool.or_eq_true, Bool.and_eq_true, decide_eq_true_eq,
    beq_iff_eq] at hok
  unfold ClusterNode.lastLog at hreq
  cases hb : l.getLast? with
  | none =>
    -- an empty log reports index 0 and term 0, below any last entry
    simp only [hb, Prod.mk.injEq] at hreq
    have hpos : 0 < log.length := by
      have hne : log ≠ [] := by
        rintro rfl
        cases ha
      exact List.length_pos_iff.mpr hne
    omega
  | some b =>
    have hindex' := index_of_getLast? hl hb
    simp only [hb, Prod.mk.injEq] at hreq
    exact ⟨b, rfl, by omega⟩

theorem logMatching_of_sourced {l' : List (ReplicatedEntry Value)}
    (hl : Logs.Sourced r l)
    (hl' : Logs.Sourced r l') : LogMatching l l' :=
  fun _ _ _ he he' hterm => hl.take_eq hl' he he' hterm

end Logs

/-! ## The peer table -/

namespace PeerTable

def indices (t : PeerTable) : List (NodeId × Nat × Nat) :=
  t.map fun p => (p.1, p.2.nextIndex, p.2.matchIndex)

theorem keys_of_indices {t t' : PeerTable} (h : t'.indices = t.indices) :
    t'.map Prod.fst = t.map Prod.fst := by
  have hfst := congrArg (List.map Prod.fst) h
  simpa [indices, Function.comp_def] using hfst

theorem exists_of_indices {t t' : PeerTable} (h : t'.indices = t.indices) {p} (hp : p ∈ t') :
    ∃ q ∈ t, q.1 = p.1 ∧ q.2.nextIndex = p.2.nextIndex ∧ q.2.matchIndex = p.2.matchIndex := by
  have hin : (p.1, p.2.nextIndex, p.2.matchIndex) ∈ t.indices := by
    rw [← h]
    exact List.mem_map_of_mem hp
  obtain ⟨q, hq, he⟩ := List.mem_map.mp hin
  simp only [Prod.mk.injEq] at he
  exact ⟨q, hq, he⟩

theorem indices_modify {f : PeerStatus → PeerStatus}
    (hf : ∀ s, (f s).nextIndex = s.nextIndex ∧ (f s).matchIndex = s.matchIndex)
    (t : PeerTable) (id : NodeId) : (t.modify id f).indices = t.indices := by
  unfold indices modify
  rw [List.map_map]
  refine List.map_congr_left fun p _ => ?_
  by_cases hp : p.1 = id
  · simp [hp, hf p.2]
  · simp [hp]

theorem keys_modify (t : PeerTable) (id : NodeId) (f : PeerStatus → PeerStatus) :
    (t.modify id f).map Prod.fst = t.map Prod.fst := by
  unfold modify
  rw [List.map_map]
  refine List.map_congr_left fun p _ => ?_
  by_cases hp : p.1 = id
  · simp [hp]
  · simp [hp]

theorem mem_of_get {t : PeerTable} {id : NodeId} {s : PeerStatus} (h : t.get id = some s) :
    (id, s) ∈ t := by
  obtain ⟨l, r, rfl, -⟩ := List.lookup_eq_some_iff.mp h
  simp

end PeerTable

namespace ClusterNode

theorem indices_touch (n : ClusterNode Value) (id : NodeId) :
    (n.touch id).peerStatus.indices = n.peerStatus.indices :=
  PeerTable.indices_modify (f := fun s => { s with reachable := true }) (fun _ => ⟨rfl, rfl⟩) _ _

theorem indices_markPeerUnreachable (n : ClusterNode Value) (id : NodeId) :
    (n.markPeerUnreachable id).peerStatus.indices = n.peerStatus.indices :=
  PeerTable.indices_modify (f := fun s => { s with reachable := false }) (fun _ => ⟨rfl, rfl⟩) _ _

theorem keys_acceptLeader (n : ClusterNode Value) (term : Nat) (id : NodeId) :
    (n.acceptLeader term id).peerStatus.map Prod.fst = n.peerStatus.map Prod.fst :=
  PeerTable.keys_modify _ _ (fun s => { s with reachable := true })

end ClusterNode

variable {m : Membership} {r r' : Logs Value} {i : NodeId}

theorem Leading.of_indices {n n' : ClusterNode Value} (h : Leading m r i n)
    (hterm : n'.state.term = n.state.term) (hlog : n'.log = n.log)
    (hpeers : n'.peerStatus.indices = n.peerStatus.indices) : Leading m r i n' where
  member := h.member
  own := by
    rw [hterm, hlog]
    exact h.own
  next := by
    intro p hp
    obtain ⟨q, hq, -, hnext, -⟩ := PeerTable.exists_of_indices hpeers hp
    rw [← hnext]
    exact h.next q hq
  matched := by
    intro p hp
    obtain ⟨q, hq, hkey, -, hmatch⟩ := PeerTable.exists_of_indices hpeers hp
    rw [← hmatch, ← hkey, hterm]
    exact h.matched q hq

/-- A node that changed in what the protocol does not see. -/
theorem NodeSim.of_state {h h' : VoteHistory Value} (hn : NodeSim m r i h)
    (hstate : h'.node.state = h.node.state) (hlog : h'.node.log = h.node.log)
    (hvotes : h'.voteSet = h.voteSet)
    (hpeers : h'.node.peerStatus.indices = h.node.peerStatus.indices) : NodeSim m r i h' where
  term := by rw [hstate, hn.term]
  log := by rw [hlog, hn.log]
  commit := by rw [hstate, hn.commit]
  votes := by rw [hvotes, hn.votes]
  keys := by rw [PeerTable.keys_of_indices hpeers, hn.keys]
  leading := by
    intro hrole
    rw [hstate] at hrole
    exact (hn.leading hrole).of_indices (by rw [hstate]) hlog hpeers

theorem VoteHistory.voteSet_step_none {h : VoteHistory Value} {op : NodeOp Value}
    (hcast : h.node.castVote op = none) : (h.step op).voteSet = h.voteSet := by
  rw [VoteHistory.step_voteSet, hcast]
  simp

theorem VoteHistory.voteSet_step_some {h : VoteHistory Value} {op : NodeOp Value}
    {vote : Nat × NodeId} (hcast : h.node.castVote op = some vote) :
    (h.step op).voteSet = insert vote h.voteSet := by
  rw [VoteHistory.step_voteSet, hcast, Set.insert_eq, Set.union_comm]
  congr 1
  ext v
  exact ⟨fun he => (Option.some.inj he).symm, fun he => congrArg some (Eq.symm he)⟩

/-! ## Parts of the system -/

namespace Sim

variable {s : System Value}

theorem send (hs : Sim m r s) {msg : Message Value} (hm : MessageSim m r msg) :
    Sim m r (s.send msg) where
  indexed := hs.indexed
  leaders := hs.leaders
  nodes := hs.nodes
  rounds := hs.rounds
  messages := by
    intro msg' hin
    rcases List.mem_append.mp hin with hold | hnew
    · exact hs.messages msg' hold
    · rw [List.mem_singleton.mp hnew]
      exact hm

theorem setRound (hs : Sim m r s) {round : Option ElectionRound}
    (hr : ∀ rd, round = some rd → RoundSim m r i rd) : Sim m r (s.setRound i round) where
  indexed := hs.indexed
  leaders := hs.leaders
  nodes := hs.nodes
  rounds := by
    intro j rd hj
    by_cases hji : j = i
    · subst hji
      rw [System.setRound_rounds_self] at hj
      exact hr rd hj
    · rw [System.setRound_rounds_ne s hji] at hj
      exact hs.rounds j rd hj
  messages := hs.messages

/-- One node and one replica change, and perhaps the leaders. -/
theorem change (hs : Sim m r s) {s' : System Value} (he : Logs.Extends r r')
    (hindexed : Logs.Indexed r')
    (hleaders : ∀ t j, r'.history.leader t = some j ↔ (j, t) ∈ s'.promotions)
    (hnode : NodeSim m r' i (s'.voters i))
    (hframe : ∀ j, j ≠ i → s'.voters j = s.voters j ∧ r'.replica j = r.replica j)
    (hrounds : ∀ j rd, s'.rounds j = some rd → s.rounds j = some rd ∧
      ∀ t, r'.history.leader t = some j → r.history.leader t = some j)
    (hnetwork : s'.network = s.network) : Sim m r' s' where
  indexed := hindexed
  leaders := hleaders
  nodes := by
    intro j
    by_cases hj : j = i
    · subst hj
      exact hnode
    · obtain ⟨hvoters, hreplica⟩ := hframe j hj
      rw [hvoters]
      exact (hs.nodes j).mono he hreplica
  rounds := by
    intro j rd hj
    obtain ⟨hold, hlead⟩ := hrounds j rd hj
    exact (hs.rounds j rd hold).mono he (he.term j) hlead
  messages := by
    rw [hnetwork]
    exact fun msg hm => (hs.messages msg hm).mono he

/-- One node makes a call, and one replica follows it. -/
theorem call (hs : Sim m r s) {op : NodeOp Value} (he : Logs.Extends r r')
    (hindexed : Logs.Indexed r') (hlead : r'.history.leader = r.history.leader)
    (hframe : ∀ j, j ≠ i → r'.replica j = r.replica j)
    (hnode : NodeSim m r' i ((s.voters i).step op)) : Sim m r' (s.call i op) := by
  refine hs.change he hindexed ?_ ?_ (fun j hj => ⟨s.call_voters_ne hj op, hframe j hj⟩) ?_ rfl
  · rw [hlead]
    exact hs.leaders
  · rw [System.call_voters_self]
    exact hnode
  · rw [hlead]
    exact fun j rd hj => ⟨hj, fun _ ht => ht⟩

theorem call_same (hs : Sim m r s) {op : NodeOp Value}
    (hstate : ((s.node i).after op).state = (s.node i).state)
    (hlog : ((s.node i).after op).log = (s.node i).log)
    (hpeers : ((s.node i).after op).peerStatus.indices = (s.node i).peerStatus.indices)
    (hcast : (s.node i).castVote op = none) : Sim m r (s.call i op) := by
  have hnode : NodeSim m r i ((s.voters i).step op) :=
    (hs.nodes i).of_state hstate hlog (VoteHistory.voteSet_step_none hcast) hpeers
  exact hs.call (Replicas.Extends.refl r) hs.indexed rfl (fun _ _ => rfl) hnode

/-- What a replica must be for the node that has made a call. -/
theorem call_set (hs : Sim m r s) (hinv : Logs.Inv m r) {op : NodeOp Value}
    {n : ClusterNode Value} (hafter : (s.node i).after op = n)
    {ρ : Replica NodeId (ReplicatedEntry Value)} (hsteps : Logs.Steps m r (r.set i ρ))
    (hterm : n.state.term = ρ.term) (hlog : n.log = ρ.log)
    (hcommit : n.state.commitIndex = ρ.commit)
    (hvotes : ((s.voters i).step op).voteSet = ρ.votes)
    (hkeys : n.peerStatus.map Prod.fst = (s.node i).peerStatus.map Prod.fst)
    (hleading : n.state.role = .leader → Leading m (r.set i ρ) i n) :
    Sim m (r.set i ρ) (s.call i op) := by
  have he : Logs.Extends r (r.set i ρ) := (hsteps.inv hinv).2
  have hself := Replicas.set_replica_self r i ρ
  have hnode : ((s.voters i).step op).node = n := hafter
  refine hs.call he hs.indexed rfl (fun j hj => Replicas.set_replica_ne r hj ρ) ?_
  exact {
    term := by rw [hself, hnode, hterm]
    log := by rw [hself, hnode, hlog]
    commit := by rw [hself, hnode, hcommit]
    votes := by rw [hself, hvotes]
    keys := by rw [hnode, hkeys]; exact (hs.nodes i).keys
    leading := by
      intro hrole
      rw [hnode] at hrole ⊢
      exact hleading hrole }

end Sim

end Wardex.Cluster
