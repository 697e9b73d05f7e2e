import Wardex.Cluster.Replication

/-! Each step of the cluster that keeps to the replication rules is a sequence of actions of
the replication protocol. -/

namespace Wardex.Cluster

open Wardex.Lib

variable {Value : Type} {m : Membership} {r r' : Logs Value}

namespace Sim

variable {s : System Value} {i : NodeId}

/-! ## Elections -/

variable (m r) in
/-- The protocol can follow the cluster to the state `s`. -/
def Follows (s : System Value) : Prop := ∃ r', Logs.Steps m r r' ∧ Sim m r' s

theorem follows (hs : Sim m r s) : Follows m r s := ⟨r, Relation.ReflTransGen.refl, hs⟩

theorem markPeerUnreachable (hs : Sim m r s) (i peer : NodeId) :
    Sim m r (s.call i (.markPeerUnreachable peer)) :=
  hs.call_same rfl rfl ((s.node i).indices_markPeerUnreachable peer) rfl

theorem startElection (hs : Sim m r s) (hinv : Logs.Inv m r) (hsys : System.Inv m s) {i : NodeId}
    (hterm : (s.node i).state.term + 1 < 2 ^ 64) : Follows m r (s.startElection m i) := by
  rw [System.startElection]
  split_ifs with henabled
  swap
  · exact hs.follows
  have hn := hs.nodes i
  have hname : (s.node i).config.nodeId = i := congrArg ClusterConfig.nodeId (hsys.config i)
  have hnext : wrappingAdd (s.node i).state.term 1 = (r.replica i).term + 1 := by
    rw [ClusterNode.wrappingAdd_one_of_lt hterm, ← hn.term]
    rfl
  have hcast : (s.voters i).node.castVote .startElection =
      some ((r.replica i).term + 1, i) := congrArg some (Prod.ext hnext hname)
  have hvotes : ((s.voters i).step .startElection).voteSet =
      insert ((r.replica i).term + 1, i) (r.replica i).votes := by
    rw [VoteHistory.voteSet_step_some hcast, hn.votes]
  have hsteps := Replicas.Steps.campaign hinv i
  have hself := Replicas.set_replica_self r i ((r.replica i).campaign i)
  have hafter : (s.node i).after .startElection = (s.node i).startElection.1 := rfl
  have hsim := hs.call_set hinv hafter hsteps hnext hn.log hn.commit hvotes rfl
    (fun hrole => by cases hrole)
  refine ⟨_, hsteps, hsim.setRound fun rd hrd => ?_⟩
  cases hrd
  refine { member := henabled.1, term_le := ?_, describes := ?_, unled := ?_ }
  · rw [hself]
    exact hnext.le
  · refine ⟨(r.replica i).log, ?_, ?_⟩
    · rw [Replicas.candidacy, hself]
      exact (congrArg _ hnext).trans (Function.update_self ..)
    · rw [← hn.log]
      rfl
  · intro t ht
    have hle := (hinv.leads t i ht).1
    exact (Nat.lt_succ_of_le hle).trans_eq hnext.symm

theorem sendVoteRequest (hs : Sim m r s) (i : NodeId) : Sim m r (s.sendVoteRequest i) := by
  rw [System.sendVoteRequest]
  split
  · next req peer rest n hround => exact hs.send (hs.rounds i _ hround).describes
  · exact hs

theorem next_round (hs : Sim m r s) {req : VoteRequest} {votes votes' : Nat} {peer : NodeId}
    {rest : List NodeId}
    (hround : s.rounds i = some { request := req, votes := votes, pending := peer :: rest }) :
    Sim m r (s.setRound i (some { request := req, votes := votes', pending := rest })) := by
  have h := hs.rounds i _ hround
  refine hs.setRound fun rd hrd => ?_
  cases hrd
  exact { member := h.member, term_le := h.term_le, describes := h.describes, unled := h.unled }

theorem voteRpcFailed (hs : Sim m r s) (i : NodeId) : Sim m r (s.voteRpcFailed i) := by
  rw [System.voteRpcFailed]
  split
  · next req n peer rest hround =>
    exact (hs.markPeerUnreachable i peer).next_round hround
  · exact hs

theorem receiveVote (hs : Sim m r s) (src dst : NodeId) (req : VoteRequest)
    (resp : VoteResponse) : Sim m r (s.receiveVote src dst req resp) := by
  rw [System.receiveVote]
  split
  · next request n peer rest hround =>
    by_cases hmatch : peer = src ∧ request = req
    · rw [if_pos hmatch]
      exact hs.next_round hround
    · rwa [if_neg hmatch]
  · exact hs

theorem indexed_promote (hs : Sim m r s) (hinv : Logs.Inv m r) (i : NodeId) :
    Logs.Indexed (r.promote i) := by
  intro t
  by_cases ht : t = (r.replica i).term
  · subst ht
    have hsourced := (hinv.replica i).sourced
    rw [Replicas.promote_canon_self]
    exact ⟨indexed_of_sourced hs.indexed hsourced, length_lt_of_sourced hs.indexed hsourced⟩
  · rw [Replicas.promote_canon_ne r ht]
    exact hs.indexed t

theorem leaders_promote (hs : Sim m r s) (hnone : r.history.leader (r.replica i).term = none)
    (t : Nat) (j : NodeId) : (r.promote i).history.leader t = some j ↔
      (j, t) ∈ s.promotions ++ [(i, (s.node i).state.term)] := by
  have hterm : (s.node i).state.term = (r.replica i).term := (hs.nodes i).term
  rw [List.mem_append, List.mem_singleton, Prod.mk.injEq, hterm]
  by_cases ht : t = (r.replica i).term
  · subst ht
    rw [Replicas.promote_leader_self]
    constructor
    · intro h
      exact Or.inr ⟨(Option.some.inj h).symm, rfl⟩
    · rintro (hold | ⟨rfl, -⟩)
      · have hsome := (hs.leaders _ j).mpr hold
        rw [hnone] at hsome
        cases hsome
      · rfl
  · rw [Replicas.promote_leader_ne r ht, hs.leaders t j]
    exact ⟨Or.inl, fun h => h.resolve_right fun hnew => ht hnew.2⟩

/-- A tally makes a leader only in a term that has none. -/
theorem leader_none (hs : Sim m r s) (hsys : System.Inv m s) {round : ElectionRound}
    (hround : s.rounds i = some round)
    (helected : System.ElectedIn m s.votes (s.node i).state.term i) :
    r.history.leader (r.replica i).term = none := by
  have hterm : (s.node i).state.term = (r.replica i).term := (hs.nodes i).term
  have hr := hs.rounds i round hround
  by_contra hne
  obtain ⟨j, hj⟩ := Option.ne_none_iff_exists'.mp hne
  have hpromoted := hsys.promotions j _ ((hs.leaders _ j).mp hj)
  rw [← hterm] at hpromoted
  obtain rfl := hpromoted.unique (fun v => (hsys.sound v).2) helected
  exact absurd (hr.unled _ hj) (not_lt.mpr hr.term_le)

theorem leading_becomeLeader {n : ClusterNode Value} (hi : i ∈ m.ids)
    (hown : n.log.length ≤ (r.replica i).ack n.state.term) : Leading m r i n.becomeLeader where
  member := hi
  own := hown
  next := by
    intro p hp
    obtain ⟨q, -, rfl⟩ := List.mem_map.mp hp
    exact Nat.le_add_left 1 _
  matched := by
    intro p hp
    obtain ⟨q, -, rfl⟩ := List.mem_map.mp hp
    exact Nat.zero_le _

/-- A promoted node gives the new term its log, and holds all of it. -/
theorem promote (hs : Sim m r s) (hinv : Logs.Inv m r) (hsys : System.Inv m s)
    {round : ElectionRound} (hround : s.rounds i = some round)
    (helected : System.ElectedIn m s.votes (s.node i).state.term i) :
    Follows m r { (s.call i .becomeLeader).setRound i none with
      promotions := s.promotions ++ [(i, (s.node i).state.term)] } := by
  have hn := hs.nodes i
  have hterm : (s.node i).state.term = (r.replica i).term := hn.term
  have hlog : (s.node i).log = (r.replica i).log := hn.log
  have hnone := hs.leader_none hsys hround helected
  -- the votes of the nodes are the votes of the replicas
  have hvote : Ballot.Elected m.universe r.votes (r.replica i).term i := by
    have hvotes : s.votes = r.votes := funext fun v => (hs.nodes v).votes
    rw [← hvotes, ← hterm]
    exact helected
  have hpre : ((r.promote i).replica i).log <+:
      (r.promote i).history.canon ((r.promote i).replica i).term :=
    (r.promote_canon_self i) ▸ List.prefix_rfl
  -- the promotion, and the new leader's acknowledgement of its own log
  have hsteps : Logs.Steps m r ((r.promote i).set i (r.replica i).acknowledged) :=
    (Relation.ReflTransGen.single (Replicas.Step.promote i hnone hvote)).tail
      (Replicas.Step.acknowledge i hpre)
  have hself := Replicas.set_replica_self (r.promote i) i (r.replica i).acknowledged
  have hvoters := s.call_voters_self i .becomeLeader
  refine ⟨_, hsteps, hs.change (i := i) (hsteps.inv hinv).2 (hs.indexed_promote hinv i)
    (hs.leaders_promote hnone) ?_ (fun j hj => ⟨s.call_voters_ne hj _, ?_⟩) ?_ rfl⟩
  · refine { term := ?_, log := ?_, commit := ?_, votes := ?_, keys := ?_, leading := ?_ }
    · rw [hself]
      exact (congrArg (fun h => h.node.state.term) hvoters).trans hn.term
    · rw [hself]
      exact (congrArg (fun h => h.node.log) hvoters).trans hn.log
    · rw [hself]
      exact (congrArg (fun h => h.node.state.commitIndex) hvoters).trans hn.commit
    · rw [hself]
      have hkeep : ((s.voters i).step .becomeLeader).voteSet = (s.voters i).voteSet :=
        VoteHistory.voteSet_step_none rfl
      exact ((congrArg VoteHistory.voteSet hvoters).trans hkeep).trans hn.votes
    · have hkeys : ((s.voters i).step .becomeLeader).node.peerStatus.map Prod.fst =
          (s.node i).peerStatus.map Prod.fst :=
        List.map_map.trans (List.map_congr_left fun _ _ => rfl)
      exact ((congrArg (fun h => h.node.peerStatus.map Prod.fst) hvoters).trans hkeys).trans
        hn.keys
    · intro _
      have hown : (s.node i).log.length ≤
          (((r.promote i).set i (r.replica i).acknowledged).replica i).ack
            (s.node i).state.term := by
        rw [hself, hterm, Replica.acknowledged_ack_self, hlog]
        exact le_max_right _ _
      have hleading := leading_becomeLeader (hs.rounds i round hround).member hown
      exact (congrArg VoteHistory.node hvoters) ▸ hleading
  · exact Replicas.set_replica_ne (r.promote i) hj _
  · intro j rd hj
    have hji : j ≠ i := by
      rintro rfl
      have hgone := System.setRound_rounds_self (s.call j .becomeLeader) j none
      exact absurd (hgone.symm.trans hj) (by simp)
    have hkeep := System.setRound_rounds_ne (s.call i .becomeLeader) hji none
    refine ⟨hkeep.symm.trans hj, fun t ht => ?_⟩
    have hne : t ≠ (r.replica i).term := by
      rintro rfl
      exact hji (Option.some.inj (ht.symm.trans (r.promote_leader_self i)))
    exact (r.promote_leader_ne hne).symm.trans ht

theorem finishElection (hs : Sim m r s) (hinv : Logs.Inv m r) (hsys : System.Inv m s)
    {i : NodeId} (he : System.PromotedByMajority m s (.finishElection i)) :
    Follows m r (s.finishElection m i) := by
  rw [System.finishElection]
  split
  · next req n hround =>
    split_ifs with htally
    · exact hs.promote hinv hsys hround (he _ hround rfl htally)
    · exact (hs.setRound fun rd hrd => by cases hrd).follows
  · exact hs.follows

/-! ## The leader's log -/

theorem leader_eq (hs : Sim m r s) (hsys : System.Inv m s) {i : NodeId}
    (hrole : (s.node i).state.role = .leader) :
    r.history.leader (r.replica i).term = some i := by
  have hterm : (s.node i).state.term = (r.replica i).term := (hs.nodes i).term
  rw [hs.leaders, ← hterm]
  exact hsys.leaders i hrole

theorem indexed_extendCanon (hs : Sim m r s) (hinv : Logs.Inv m r) {e : ReplicatedEntry Value}
    (hindex : e.index = (r.replica i).log.length + 1)
    (hroom : (r.replica i).log.length + 1 < u64Max) : Logs.Indexed (r.extendCanon i e) := by
  intro t
  by_cases ht : t = (r.replica i).term
  · subst ht
    have hidx := indexed_of_sourced hs.indexed (hinv.replica i).sourced
    rw [Replicas.extendCanon_canon_self]
    refine ⟨hidx.push ?_, ?_⟩
    · rw [hindex, Nat.zero_add]
    · rwa [List.length_append, List.length_singleton]
  · rw [Replicas.extendCanon_canon_ne r e ht]
    exact hs.indexed t

/-- The leader makes an entry, and holds it itself. -/
theorem appendEntry (hs : Sim m r s) (hinv : Logs.Inv m r) (hsys : System.Inv m s)
    (now : String) (entryType : EntryType) (data : Value)
    (hroom : (s.node i).log.length + 1 < u64Max) :
    Follows m r (s.call i (.appendEntry now entryType data)) := by
  by_cases hrole : (s.node i).state.role = .leader
  swap
  · have hsame : (s.node i).after (.appendEntry now entryType data) = s.node i := by
      simp only [ClusterNode.after, ClusterNode.apply, ClusterNode.appendEntry]
      rw [if_pos hrole]
    have hsim : Sim m r (s.call i (.appendEntry now entryType data)) :=
      hs.call_same (by rw [hsame]) (by rw [hsame]) (by rw [hsame]) rfl
    exact hsim.follows
  have hn := hs.nodes i
  have hlead := hs.leader_eq hsys hrole
  have hterm : (s.node i).state.term = (r.replica i).term := hn.term
  have hlog : (s.node i).log = (r.replica i).log := hn.log
  obtain ⟨e, he⟩ : ∃ e : ReplicatedEntry Value, e =
      { index := (s.node i).log.length + 1, term := (s.node i).state.term, timestamp := now,
        entryType := entryType, data := data } := ⟨_, rfl⟩
  have hnode : ((s.voters i).step (.appendEntry now entryType data)).node =
      { s.node i with log := (s.node i).log ++ [e] } := by
    have hcall : (s.node i).after (.appendEntry now entryType data) =
        ((s.node i).appendEntry now entryType data).1 := rfl
    rw [ClusterNode.appendEntry, if_neg (not_not.mpr hrole)] at hcall
    rw [he]
    exact hcall
  have hindex : e.index = (r.replica i).log.length + 1 := by rw [he, ← hlog]
  have heterm : e.term = (r.replica i).term := by rw [he, ← hterm]
  obtain ⟨ρ, hρ⟩ : ∃ ρ, ρ = ({ r.replica i with log := (r.replica i).log ++ [e] } :
    Replica NodeId (ReplicatedEntry Value)) := ⟨_, rfl⟩
  have hsteps : Logs.Steps m r ((r.extend i e).set i ρ.acknowledged) :=
    hρ ▸ Replicas.Steps.extendOwn i hlead heterm
  have hext := (hsteps.inv hinv).2
  have hself := Replicas.set_replica_self (r.extend i e) i ρ.acknowledged
  have hindexed := hs.indexed_extendCanon hinv hindex (hlog ▸ hroom)
  refine ⟨_, hsteps, hs.call hext hindexed rfl (fun j hj => ?_) ?_⟩
  · rw [Replicas.set_replica_ne _ hj]
    exact Replicas.set_replica_ne (r.extendCanon i e) hj _
  · have hleading := (hn.leading hrole).mono hext
    have hown : (s.node i).log.length + 1 ≤
        (((r.extend i e).set i ρ.acknowledged).replica i).ack (s.node i).state.term := by
      have hack := ρ.acknowledged_ack_self
      have hlen : (s.node i).log.length + 1 = ρ.log.length := by
        rw [hρ, hlog, List.length_append, List.length_singleton]
      have hρterm : (s.node i).state.term = ρ.term := by rw [hρ, hterm]
      rw [hself, hρterm, hack, hlen]
      exact le_max_right _ _
    exact {
      term := by rw [hnode, hself, hρ]; exact hn.term
      log := by rw [hnode, hself, hρ, hlog]; rfl
      commit := by rw [hnode, hself, hρ]; exact hn.commit
      votes := by
        rw [hself, hρ, VoteHistory.voteSet_step_none rfl]
        exact hn.votes
      keys := by rw [hnode]; exact hn.keys
      leading := by
        intro _
        rw [hnode]
        refine { hleading with own := ?_ }
        rw [List.length_append, List.length_singleton]
        exact hown }

/-- What a leader sends comes from its log. -/
theorem sliced (hs : Sim m r s) (hinv : Logs.Inv m r) (hsys : System.Inv m s)
    {i peer : NodeId} {req : AppendRequest Value}
    (hreq : (s.node i).prepareAppend peer = some req) :
    Sliced m r i peer req (s.node i).log := by
  have hn := hs.nodes i
  have hlog : (s.node i).log = (r.replica i).log := hn.log
  have hterm : (s.node i).state.term = (r.replica i).term := hn.term
  have hrole : (s.node i).state.role = .leader := by
    by_contra hne
    rw [ClusterNode.prepareAppend, if_pos hne] at hreq
    cases hreq
  obtain ⟨status, hstatus⟩ : ∃ status, (s.node i).peerStatus.get peer = some status := by
    cases hget : (s.node i).peerStatus.get peer with
    | none => simp [ClusterNode.prepareAppend, hrole, hget] at hreq
    | some status => exact ⟨status, rfl⟩
  have hmem := PeerTable.mem_of_get hstatus
  -- `next_index` never reaches 0, so `next - 1` does not wrap
  have hone : 1 ≤ status.nextIndex := (hn.leading hrole).next _ hmem
  have hnext : status.nextIndex = (status.nextIndex - 1) + 1 := (Nat.sub_add_cancel hone).symm
  have hle : status.nextIndex - 1 ≤ (s.node i).log.length := by
    by_contra hgt
    rw [ClusterNode.prepareAppend_past hstatus (by omega)] at hreq
    cases hreq
  have hsourced := (hinv.replica i).sourced
  rw [← hlog] at hsourced
  have hslice := ClusterNode.prepareAppend_eq hrole (indexed_of_sourced hs.indexed hsourced)
    hstatus hnext hle (length_lt_of_sourced hs.indexed hsourced)
  obtain rfl : (s.node i).sliceRequest (status.nextIndex - 1) = req := by
    rw [hslice] at hreq
    exact Option.some.inj hreq
  have hlead := hs.leader_eq hsys hrole
  have hcommit : (s.node i).state.commitIndex = (r.replica i).commit := hn.commit
  obtain ⟨hcle, hc⟩ := (hinv.replica i).committed
  exact {
    leader := (congrArg r.history.leader hterm).trans hlead
    ne := by
      rintro rfl
      have hkey : i ∈ m.peers i := by
        rw [← hn.keys]
        exact List.mem_map_of_mem hmem
      simp [Membership.peers] at hkey
    canon := by
      have hpre := hinv.log_of_leader hlead
      rw [hlog, hpre, ← hterm]
      exact List.prefix_rfl
    prev_le := hle
    prev_term := rfl
    entries := List.take_prefix _ _
    commit_le := by
      rw [hlog]
      exact hcommit.le.trans hcle
    commit := by
      have hsame : ((s.node i).sliceRequest (status.nextIndex - 1)).leaderCommit =
        (r.replica i).commit := hcommit
      have hterm' : ((s.node i).sliceRequest (status.nextIndex - 1)).term =
        (r.replica i).term := hterm
      rw [hsame, hlog, hterm']
      exact hc }

theorem sendAppend (hs : Sim m r s) (hinv : Logs.Inv m r) (hsys : System.Inv m s)
    (i peer : NodeId) : Sim m r (s.sendAppend i peer) := by
  rw [System.sendAppend]
  split
  · next req hreq => exact hs.send (hs.sliced hinv hsys hreq)
  · exact hs

/-! ## Vote requests -/

theorem indices_handleVoteRequest (n : ClusterNode Value) (req : VoteRequest) :
    (n.handleVoteRequest req).1.peerStatus.indices = n.peerStatus.indices := by
  unfold ClusterNode.handleVoteRequest
  split_ifs
  · rfl
  all_goals exact ClusterNode.indices_touch _ _

theorem handleVoteRequest (hs : Sim m r s) (hinv : Logs.Inv m r) {src dst : NodeId}
    {req : VoteRequest} (hreq : Describes r src req) (hname : req.candidateId = src) :
    Follows m r (s.call dst (.handleVoteRequest req)) := by
  have hn := hs.nodes dst
  have hterm : (s.node dst).state.term = (r.replica dst).term := hn.term
  by_cases hstale : req.term < (s.node dst).state.term
  · have hsame : (s.node dst).after (.handleVoteRequest req) = s.node dst :=
      congrArg Prod.fst (ClusterNode.handleVoteRequest_stale hstale)
    have hcast : (s.node dst).castVote (.handleVoteRequest req) = none := by
      rw [ClusterNode.castVote, ClusterNode.handleVoteRequest_stale hstale]
      rfl
    have hsim : Sim m r (s.call dst (.handleVoteRequest req)) :=
      hs.call_same (by rw [hsame]) (by rw [hsame]) (by rw [hsame]) hcast
    exact hsim.follows
  have hle : (s.node dst).state.term ≤ req.term := not_lt.mp hstale
  obtain ⟨hterm', hresp⟩ := ClusterNode.handleVoteRequest_term hle
  obtain ⟨hlog', hcommit'⟩ := (s.node dst).handleVoteRequest_frame req
  have hafter : (s.node dst).after (.handleVoteRequest req) =
    ((s.node dst).handleVoteRequest req).1 := rfl
  have hpeers := indices_handleVoteRequest (s.node dst) req
  have hkeys := PeerTable.keys_of_indices hpeers
  -- whatever the answer, a node that still leads has kept its term
  have hleading : ∀ {r' : Logs Value}, Logs.Extends r r' →
      ((s.node dst).after (.handleVoteRequest req)).state.role = .leader →
      Leading m r' dst ((s.node dst).after (.handleVoteRequest req)) := by
    intro r' he hrole
    obtain ⟨hold, hkeep⟩ := (s.node dst).leader_of_after (by simp) hrole
    exact ((hn.leading hold).mono he).of_indices hkeep hlog' hpeers
  have hraise : Logs.Steps m r (r.set dst { r.replica dst with term := req.term }) :=
    (Replicas.Steps.start r dst).raise (hterm ▸ hle)
  cases hg : ((s.node dst).handleVoteRequest req).2.voteGranted with
  | false =>
    have hcast : (s.node dst).castVote (.handleVoteRequest req) = none := by
      rw [ClusterNode.castVote, hg]
      rfl
    have hsim := hs.call_set hinv hafter hraise hterm' (hlog'.trans hn.log)
      (hcommit'.trans hn.commit) ((VoteHistory.voteSet_step_none hcast).trans hn.votes) hkeys
      (hleading (hraise.inv hinv).2)
    exact ⟨_, hraise, hsim⟩
  | true =>
    obtain ⟨l, hl, hlast⟩ := hreq
    -- the request describes the candidate's log, so the check is `UpToDate`
    have hup := (ClusterNode.handleVoteRequest_granted hg).2.2.1
    have hcast : (s.voters dst).node.castVote (.handleVoteRequest req) = some (req.term, src) := by
      have hif : (s.node dst).castVote (.handleVoteRequest req) =
          some (((s.node dst).handleVoteRequest req).2.term, req.candidateId) := if_pos hg
      rw [hresp, hname] at hif
      exact hif
    have hsourced := ((hinv.replica src).candidacy_ok _ l hl).2.1
    have hlog : (s.node dst).log = (r.replica dst).log := hn.log
    have hidx := indexed_of_sourced hs.indexed (hinv.replica dst).sourced
    rw [hlog] at hup
    have hsteps := hraise.vote ((hraise.inv hinv).2.candidacy src _ l hl)
      (upToDate_of_lastLogOk (indexed_of_sourced hs.indexed hsourced) hidx hlast hup)
    have hvotes : ((s.voters dst).step (.handleVoteRequest req)).voteSet =
        insert (req.term, src) (r.replica dst).votes := by
      rw [VoteHistory.voteSet_step_some hcast, hn.votes]
    have hsim := hs.call_set hinv hafter hsteps hterm' (hlog'.trans hn.log)
      (hcommit'.trans hn.commit) hvotes hkeys (hleading (hsteps.inv hinv).2)
    exact ⟨_, hsteps, hsim⟩

/-! ## Append requests and responses -/

section Append

variable {src dst : NodeId} {req : AppendRequest Value} {source log : List (ReplicatedEntry Value)}

/-- A request is rejected, and the log perhaps cut. -/
theorem handleAppend_rejected (hs : Sim m r s) (hinv : Logs.Inv m r)
    (hreq : Sliced m r src dst req source) (hterm : (s.node dst).state.term ≤ req.term)
    (hcheck : ClusterNode.consistencyCheck (s.node dst).log req.prevLogIndex req.prevLogTerm =
      some log)
    (hafter : (s.node dst).handleAppend req =
      ({ (s.node dst).acceptLeader req.term req.leaderId with log := log },
        { term := req.term, success := false, matchIndex := log.length })) :
    ∃ r', Logs.Steps m r r' ∧ Sim m r' (s.call dst (.handleAppend req)) ∧
      MessageSim m r' (.appendResponse dst src ((s.node dst).handleAppend req).2 :
        Message Value) := by
  have hn := hs.nodes dst
  have hlog : (s.node dst).log = (r.replica dst).log := hn.log
  have hterm' : (s.node dst).state.term = (r.replica dst).term := hn.term
  have hsourced : Logs.Sourced r (s.node dst).log := hlog ▸ (hinv.replica dst).sourced
  obtain ⟨hcut, hshared⟩ := consistencyCheck_sliced hinv hreq hsourced hcheck
  have hraise : Logs.Steps m r (r.set dst { r.replica dst with term := req.term }) :=
    (Replicas.Steps.start r dst).raise (hterm' ▸ hterm)
  have hsteps := hraise.accept hreq.leader hreq.ne (Or.inr (hlog ▸ hcut)) (hlog ▸ hshared)
  have hnode : (s.node dst).after (.handleAppend req) = ((s.node dst).handleAppend req).1 := rfl
  rw [hafter] at hnode
  have hsim := hs.call_set hinv hnode hsteps rfl rfl hn.commit
    ((VoteHistory.voteSet_step_none rfl).trans hn.votes)
    (ClusterNode.keys_acceptLeader _ _ _) (fun hrole => by cases hrole)
  refine ⟨_, hsteps, hsim, ?_⟩
  rw [hafter]
  refine ⟨?_, fun hsuccess => by cases hsuccess⟩
  exact length_lt_of_sourced hs.indexed (hsourced.of_isPrefix hcut)

/-- The commit index after an accepted request. -/
def followCommit (n : ClusterNode Value) (req : AppendRequest Value)
    (log : List (ReplicatedEntry Value)) : Nat :=
  if req.leaderCommit > n.state.commitIndex then min req.leaderCommit log.length
  else n.state.commitIndex

/-- The replica adopts the term and the log, acknowledges it, and then commits. -/
theorem steps_accepted (hs : Sim m r s) (hinv : Logs.Inv m r)
    (hreq : Sliced m r src dst req source) (hterm : (s.node dst).state.term ≤ req.term)
    (hpre : log <+: r.history.canon req.term)
    (hshared : ∀ x, x <+: r.history.canon req.term → x <+: (s.node dst).log → x <+: log) :
    Logs.Steps m r (r.set dst
      { ({ r.replica dst with term := req.term, log := log } : Replica _ _).acknowledged with
        commit := followCommit (s.node dst) req log }) := by
  have hn := hs.nodes dst
  have hlog : (s.node dst).log = (r.replica dst).log := hn.log
  have hterm' : (s.node dst).state.term = (r.replica dst).term := hn.term
  have hcommit : (s.node dst).state.commitIndex = (r.replica dst).commit := hn.commit
  have hraise : Logs.Steps m r (r.set dst { r.replica dst with term := req.term }) :=
    (Replicas.Steps.start r dst).raise (hterm' ▸ hterm)
  have haccept := hraise.accept hreq.leader hreq.ne (Or.inl hpre) (hlog ▸ hshared)
  have hack := haccept.acknowledge hpre
  -- what was committed before is still in the log
  have hroom : (r.replica dst).commit ≤ log.length := by
    have hcommitted := ((haccept.inv hinv).1.replica dst).committed.1
    rw [Replicas.set_replica_self] at hcommitted
    exact hcommitted
  unfold followCommit
  split_ifs with hgt
  · obtain ⟨t, p, hC, ht, hp, hprefix⟩ := hreq.commit.resolve_left (by omega)
    have hle : min req.leaderCommit log.length ≤ req.leaderCommit := min_le_left _ _
    refine hack.commitTo (le_min (hcommit ▸ hgt.le) hroom) (min_le_right _ _)
      ((hack.inv hinv).2.committed hC) ht (hle.trans hp) ?_
    exact (take_isPrefix_of_sliced hreq hpre hle).trans hprefix
  · rw [hcommit]
    exact hack

/-- A request is accepted: the log is acknowledged, and the commit index may follow. -/
theorem handleAppend_accepted (hs : Sim m r s) (hinv : Logs.Inv m r)
    (hreq : Sliced m r src dst req source) (hterm : (s.node dst).state.term ≤ req.term)
    (hpre : log <+: r.history.canon req.term)
    (hshared : ∀ x, x <+: r.history.canon req.term → x <+: (s.node dst).log → x <+: log)
    (hafter : (s.node dst).handleAppend req =
      ({ (s.node dst).acceptLeader req.term req.leaderId with
          log := log
          state := { ((s.node dst).acceptLeader req.term req.leaderId).state with
            commitIndex := followCommit (s.node dst) req log } },
        { term := req.term, success := true, matchIndex := log.length })) :
    ∃ r', Logs.Steps m r r' ∧ Sim m r' (s.call dst (.handleAppend req)) ∧
      MessageSim m r' (.appendResponse dst src ((s.node dst).handleAppend req).2 :
        Message Value) := by
  have hsteps := hs.steps_accepted hinv hreq hterm hpre hshared
  have hnode : (s.node dst).after (.handleAppend req) = ((s.node dst).handleAppend req).1 := rfl
  rw [hafter] at hnode
  have hsim := hs.call_set hinv hnode hsteps rfl rfl rfl
    ((VoteHistory.voteSet_step_none rfl).trans (hs.nodes dst).votes)
    (ClusterNode.keys_acceptLeader _ _ _) (fun hrole => by cases hrole)
  refine ⟨_, hsteps, hsim, ?_⟩
  rw [hafter]
  refine ⟨hpre.length_le.trans_lt (hs.indexed req.term).2, fun _ => ?_⟩
  have hself := Replica.acknowledged_ack_self
    ({ r.replica dst with term := req.term, log := log } : Replica NodeId _)
  rw [Replicas.set_replica_self]
  exact (le_max_right _ _).trans_eq hself.symm

theorem handleAppend (hs : Sim m r s) (hinv : Logs.Inv m r)
    (hreq : Sliced m r src dst req source) (htail : TailKnown (s.node dst) req source) :
    ∃ r', Logs.Steps m r r' ∧ Sim m r' (s.call dst (.handleAppend req)) ∧
      MessageSim m r' (.appendResponse dst src ((s.node dst).handleAppend req).2 :
        Message Value) := by
  have hlog : (s.node dst).log = (r.replica dst).log := (hs.nodes dst).log
  have hsourced : Logs.Sourced r (s.node dst).log := hlog ▸ (hinv.replica dst).sourced
  rcases (s.node dst).handleAppend_cases req with
    ⟨-, hafter⟩ | ⟨hterm, log, hcheck, hafter⟩ | ⟨hterm, hcheck, log, happend, hafter⟩ |
    ⟨hterm, hcheck, log, happend, hafter⟩
  · have hsame : (s.node dst).after (.handleAppend req) = s.node dst := congrArg Prod.fst hafter
    have hsim : Sim m r (s.call dst (.handleAppend req)) :=
      hs.call_same (by rw [hsame]) (by rw [hsame]) (by rw [hsame]) rfl
    refine ⟨r, Relation.ReflTransGen.refl, hsim, ?_⟩
    rw [hafter]
    exact ⟨(by decide : 0 < u64Max), fun hsuccess => by cases hsuccess⟩
  · exact hs.handleAppend_rejected hinv hreq hterm hcheck hafter
  · -- a slice of a matching log leaves no gap
    obtain ⟨log', hok, -, -⟩ := appendEntries_sliced hinv hs.indexed hreq hsourced htail hterm
      hcheck
    rw [happend] at hok
    cases hok
  · obtain ⟨log', hok, hpre, hshared⟩ := appendEntries_sliced hinv hs.indexed hreq hsourced htail
      hterm hcheck
    rw [happend] at hok
    obtain rfl : log = log' := congrArg Prod.fst hok
    exact hs.handleAppend_accepted hinv hreq hterm hpre hshared hafter

/-- A leader moves its commit index to what is committed in the protocol, and a node that
does not lead leaves its own alone. -/
theorem steps_tryAdvanceCommit {resp : AppendResponse} (hs : Sim m r s) (hinv : Logs.Inv m r)
    (hsys : System.Inv m s)
    (hleading : (s.node dst).state.role = .leader →
      Leading m r dst ((s.node dst).recordPeer src resp))
    (hfollower : (s.node dst).state.role ≠ .leader → ∀ i e,
      (s.node dst).state.commitIndex < i → (s.node dst).log[i - 1]? = some e →
      e.term = (s.node dst).state.term → ((s.node dst).recordPeer src resp).replicatedAt i <
        ((s.node dst).peerStatus.length + 1) / 2 + 1) :
    Logs.Steps m r (r.set dst { r.replica dst with
      commit := ((s.node dst).recordPeer src resp).tryAdvanceCommit.state.commitIndex }) := by
  have hn := hs.nodes dst
  have hterm : (s.node dst).state.term = (r.replica dst).term := hn.term
  have hlog : (s.node dst).log = (r.replica dst).log := hn.log
  have hcommit : (s.node dst).state.commitIndex = (r.replica dst).commit := hn.commit
  have hstart : Logs.Steps m r (r.set dst (r.replica dst)) := Replicas.Steps.start r dst
  rcases ((s.node dst).recordPeer src resp).tryAdvanceCommit_spec with hsame | hc
  · have hkeep := hsame.trans hcommit
    rw [hkeep]
    exact hstart
  generalize ((s.node dst).recordPeer src resp).tryAdvanceCommit.state.commitIndex = k at hc
  have habove : (s.node dst).state.commitIndex < k := hc.above
  have hlen : k ≤ (s.node dst).log.length := hc.le_length
  by_cases hrole : (s.node dst).state.role = .leader
  · have hcanon := hinv.log_of_leader (hs.leader_eq hsys hrole)
    have hkeys : ((s.node dst).recordPeer src resp).peerStatus.map Prod.fst = m.peers dst :=
      (PeerTable.keys_modify _ _ fun status => ClusterNode.recordResponse status resp).trans
        hn.keys
    have hterm' : ((s.node dst).recordPeer src resp).state.term = (r.replica dst).term := hterm
    have hlog' : ((s.node dst).recordPeer src resp).log =
        r.history.canon ((s.node dst).recordPeer src resp).state.term := by
      rw [hterm', ← hcanon]
      exact hlog
    have hcommitted := committed_of_commitsAt (hleading hrole) hkeys hlog' hc
    refine hstart.commitTo (hcommit ▸ habove.le) (hlog ▸ hlen)
      ((hstart.inv hinv).2.committed hcommitted) hterm.le (by omega) ?_
    rw [hterm', ← hcanon]
    exact List.take_prefix _ _
  · -- the loop would need a majority of the recorded positions
    obtain ⟨e, he, heterm⟩ := hc.entry
    have hfew := hfollower hrole k e habove he heterm
    have hmajority := hc.majority
    have hcount : ((s.node dst).recordPeer src resp).peerStatus.length =
        (s.node dst).peerStatus.length := List.length_map _
    omega

theorem handleAppendResponse {resp : AppendResponse} (hs : Sim m r s) (hinv : Logs.Inv m r)
    (hsys : System.Inv m s)
    (hresp : MessageSim m r (.appendResponse src dst resp : Message Value))
    (hcur : ResponseCurrent (s.node dst) src resp) :
    Follows m r (s.call dst (.handleAppendResponse src resp)) := by
  have hn := hs.nodes dst
  have hterm : (s.node dst).state.term = (r.replica dst).term := hn.term
  have hvotes : ((s.voters dst).step (.handleAppendResponse src resp)).voteSet =
    (r.replica dst).votes := (VoteHistory.voteSet_step_none rfl).trans hn.votes
  have hnode : (s.node dst).after (.handleAppendResponse src resp) =
    (s.node dst).handleAppendResponse src resp := rfl
  unfold ClusterNode.handleAppendResponse at hnode
  by_cases hnewer : resp.term > (s.node dst).state.term
  · rw [if_pos hnewer] at hnode
    have hraise : Logs.Steps m r (r.set dst { r.replica dst with term := resp.term }) :=
      (Replicas.Steps.start r dst).raise (hterm ▸ hnewer.le)
    refine ⟨_, hraise, hs.call_set hinv hnode hraise rfl hn.log hn.commit hvotes rfl ?_⟩
    intro hrole
    cases hrole
  rw [if_neg hnewer] at hnode
  split_ifs at hnode with hknown
  · have hsim : Sim m r (s.call dst (.handleAppendResponse src resp)) :=
      hs.call_same (by rw [hnode]) (by rw [hnode]) (by rw [hnode]) rfl
    exact hsim.follows
  obtain ⟨hleader, hfollower⟩ := hcur (not_lt.mp hnewer)
  have hleading : (s.node dst).state.role = .leader →
      Leading m r dst ((s.node dst).recordPeer src resp) := by
    intro hrole
    refine leading_recordPeer (hn.leading hrole) hresp.1 fun hsuccess => ?_
    refine (hleader hrole hsuccess).imp_left fun hcurrent => ?_
    rw [← hcurrent]
    exact hresp.2 hsuccess
  have hsteps := hs.steps_tryAdvanceCommit hinv hsys hleading hfollower
  have hkeys : ((s.node dst).recordPeer src resp).tryAdvanceCommit.peerStatus.map Prod.fst =
    (s.node dst).peerStatus.map Prod.fst :=
      PeerTable.keys_modify _ _ fun status => ClusterNode.recordResponse status resp
  refine ⟨_, hsteps, hs.call_set hinv hnode hsteps hterm hn.log rfl hvotes hkeys ?_⟩
  intro hrole
  exact ((hleading hrole).mono (hsteps.inv hinv).2).of_indices rfl rfl rfl

end Append

/-! ## Steps -/

theorem deliver (hs : Sim m r s) (hinv : Logs.Inv m r) (hsys : System.Inv m s) {k : Nat}
    (he : KeepsReplication s (.deliver k)) : Follows m r (s.step m (.deliver k)) := by
  rw [System.step]
  cases hget : s.network[k]? with
  | none => exact hs.follows
  | some msg =>
    have hmem := List.mem_of_getElem? hget
    have hmsg := hs.messages msg hmem
    simp only [KeepsReplication, hget] at he
    cases msg with
    | voteRequest src dst req =>
      have hcall : Follows m r (s.call dst (.handleVoteRequest req)) :=
        hs.handleVoteRequest hinv hmsg (hsys.messages _ hmem)
      obtain ⟨r', hsteps, hsim⟩ := hcall
      exact ⟨r', hsteps, hsim.send trivial⟩
    | voteResponse src dst req resp => exact (hs.receiveVote src dst req resp).follows
    | appendRequest src dst req source =>
      obtain ⟨r', hsteps, hsim, hresp⟩ := hs.handleAppend hinv hmsg he
      exact ⟨r', hsteps, hsim.send hresp⟩
    | appendResponse src dst resp => exact hs.handleAppendResponse hinv hsys hmsg he
    | installSnapshot src dst req => exact hmsg.elim

theorem step (hs : Sim m r s) (hinv : Logs.Inv m r) (hsys : System.Inv m s) (e : Event Value)
    (helect : System.PromotedByMajority m s e) (hwhole : Uncompacted e)
    (he : KeepsReplication s e) : Follows m r (s.step m e) := by
  cases e with
  | startElection i => exact hs.startElection hinv hsys he
  | sendVoteRequest i => exact (hs.sendVoteRequest i).follows
  | voteRpcFailed i => exact (hs.voteRpcFailed i).follows
  | finishElection i => exact hs.finishElection hinv hsys helect
  | appendEntry i now entryType data => exact hs.appendEntry hinv hsys now entryType data he
  | sendAppend i peer => exact (hs.sendAppend hinv hsys i peer).follows
  | appendRpcFailed i peer => exact (hs.markPeerUnreachable i peer).follows
  | sendSnapshot i peer => exact hwhole.elim
  | compactLog i upToIndex => exact hwhole.elim
  | deliver k => exact hs.deliver hinv hsys he

end Sim

end Wardex.Cluster
