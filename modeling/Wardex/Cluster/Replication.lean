import Wardex.Cluster.Simulation

/-! The rules of replication, and what they make of a single append request or response. -/

namespace Wardex.Cluster

open Wardex.Lib

variable {Value : Type}

/-! ## The rules -/

/-- A follower that already holds all entries of a request has no tail that the sender
lacks: its last entry is of the request's term, or of the same term as the sender's. -/
def TailKnown (n : ClusterNode Value) (req : AppendRequest Value)
    (source : List (ReplicatedEntry Value)) : Prop :=
  n.state.term ≤ req.term →
    ClusterNode.consistencyCheck n.log req.prevLogIndex req.prevLogTerm = none →
    req.entries <+: n.log.drop req.prevLogIndex →
    ∀ last, n.log.getLast? = some last → last.term = req.term ∨
      ∃ e, source[n.log.length - 1]? = some e ∧ e.term = last.term

/-- A leader takes no `match_index` from an answer to an earlier term beyond what it has on
record, and at a node that does not lead, what is on record together with the answer does not
make a majority for any entry of its term past its commit index. -/
def ResponseCurrent (n : ClusterNode Value) (peerId : NodeId) (resp : AppendResponse) : Prop :=
  resp.term ≤ n.state.term →
    (n.state.role = .leader → resp.success = true → resp.term = n.state.term ∨
      ∀ p ∈ n.peerStatus, p.1 = peerId → resp.matchIndex ≤ p.2.matchIndex) ∧
    (n.state.role ≠ .leader → ∀ i e, n.state.commitIndex < i → n.log[i - 1]? = some e →
      e.term = n.state.term →
      (n.recordPeer peerId resp).replicatedAt i < (n.peerStatus.length + 1) / 2 + 1)

/-- No log is ever compacted, and no snapshot sent. -/
def Uncompacted : Event Value → Prop
  | .sendSnapshot .. => False
  | .compactLog .. => False
  | _ => True

/-- Terms and logs stay within the machine integers, no follower acknowledges a tail that its
leader lacks, and no answer to an earlier term counts for a later one. -/
def KeepsReplication (s : System Value) : Event Value → Prop
  | .startElection i => (s.node i).state.term + 1 < 2 ^ 64
  | .appendEntry i _ _ _ => (s.node i).log.length + 1 < u64Max
  | .deliver k =>
    match s.network[k]? with
    | some (.appendRequest _ dst req source) => TailKnown (s.node dst) req source
    | some (.appendResponse src dst resp) => ResponseCurrent (s.node dst) src resp
    | _ => True
  | _ => True

instance [DecidableEq Value] (n : ClusterNode Value) (req : AppendRequest Value)
    (source : List (ReplicatedEntry Value)) : Decidable (TailKnown n req source) :=
  inferInstanceAs (Decidable (_ → _ → _ → ∀ last ∈ n.log.getLast?, last.term = req.term ∨
    ∃ e ∈ source[n.log.length - 1]?, e.term = last.term))

/-- The positions to look at are those of the commit loop. -/
instance (n : ClusterNode Value) (peerId : NodeId) (resp : AppendResponse) :
    Decidable (ResponseCurrent n peerId resp) := by
  have hpositions : (∀ i ∈ List.range' (n.state.commitIndex + 1)
        (n.log.length - n.state.commitIndex), ∀ e ∈ n.log[i - 1]?, e.term = n.state.term →
        (n.recordPeer peerId resp).replicatedAt i < (n.peerStatus.length + 1) / 2 + 1) ↔
      ∀ i e, n.state.commitIndex < i → n.log[i - 1]? = some e → e.term = n.state.term →
        (n.recordPeer peerId resp).replicatedAt i < (n.peerStatus.length + 1) / 2 + 1 := by
    constructor
    · intro h i e hi he
      have hlt := lt_length_of_getElem?_some he
      refine h i ?_ e he
      rw [List.mem_range'_1]
      omega
    · intro h i hi e he
      rw [List.mem_range'_1] at hi
      exact h i e (by omega) he
  have hdecide := decidable_of_iff _ hpositions
  unfold ResponseCurrent
  infer_instance

instance : (e : Event Value) → Decidable (Uncompacted e)
  | .sendSnapshot .. | .compactLog .. => isFalse fun h => h
  | .startElection .. | .sendVoteRequest .. | .voteRpcFailed .. | .finishElection ..
  | .appendEntry .. | .sendAppend .. | .appendRpcFailed .. | .deliver .. => isTrue trivial

instance [DecidableEq Value] (s : System Value) :
    (e : Event Value) → Decidable (KeepsReplication s e)
  | .startElection i => inferInstanceAs (Decidable ((s.node i).state.term + 1 < 2 ^ 64))
  | .appendEntry i .. => inferInstanceAs (Decidable ((s.node i).log.length + 1 < u64Max))
  | .deliver k => by
    unfold KeepsReplication
    dsimp only
    split <;> infer_instance
  | .sendVoteRequest .. | .voteRpcFailed .. | .finishElection .. | .sendAppend ..
  | .appendRpcFailed .. | .sendSnapshot .. | .compactLog .. => isTrue trivial

/-- Majorities decide the elections, nothing is compacted, and the replication rules hold. -/
def Governed (m : Membership) (s : System Value) (e : Event Value) : Prop :=
  System.PromotedByMajority m s e ∧ Uncompacted e ∧ KeepsReplication s e

variable {m : Membership} {r : Logs Value}

/-! ## Append requests -/

/-- In a follower's log every part shared with the leader's log stays. -/
theorem shared_of_cut {source canon log : List (ReplicatedEntry Value)} {q : Nat}
    (hcanon : source <+: canon) (hq : q ≤ source.length) (hnot : ¬ source.take q <+: log)
    {x : List (ReplicatedEntry Value)} (hx : x <+: canon) (hxlog : x <+: log) :
    x <+: source.take q ∧ x.length < q := by
  have htake : source.take q <+: canon := (List.take_prefix _ _).trans hcanon
  have hlen : (source.take q).length = q := List.length_take_of_le hq
  have hshort : x.length < q := by
    by_contra hge
    have hin : source.take q <+: x :=
      List.prefix_of_prefix_length_le htake hx (by omega)
    exact hnot (hin.trans hxlog)
  exact ⟨List.prefix_of_prefix_length_le hx htake (by omega), hshort⟩

section Append

variable {src dst : NodeId} {req : AppendRequest Value} {n : ClusterNode Value}
  {source log : List (ReplicatedEntry Value)}

theorem take_source (hreq : Sliced m r src dst req source) :
    source.take (req.prevLogIndex + req.entries.length) =
      source.take req.prevLogIndex ++ req.entries := by
  rw [List.take_add, ← List.prefix_iff_eq_take.mp hreq.entries]

theorem isPrefix_of_tailKnown (hinv : Logs.Inv m r) (hreq : Sliced m r src dst req source)
    (hlog : Logs.Sourced r n.log) (htail : TailKnown n req source)
    (hterm : n.state.term ≤ req.term)
    (hcheck : ClusterNode.consistencyCheck n.log req.prevLogIndex req.prevLogTerm = none)
    (hin : source.take (req.prevLogIndex + req.entries.length) <+: n.log) :
    n.log <+: r.history.canon req.term := by
  have hentries : req.entries <+: n.log.drop req.prevLogIndex := by
    have hdrop := hin.drop req.prevLogIndex
    have hlen : (source.take req.prevLogIndex).length = req.prevLogIndex :=
      List.length_take_of_le hreq.prev_le
    rw [take_source hreq, List.drop_append_of_le_length hlen.ge,
      List.drop_of_length_le hlen.le, List.nil_append] at hdrop
    exact hdrop
  cases hlast : n.log.getLast? with
  | none =>
    rw [List.getLast?_eq_none_iff.mp hlast]
    exact List.nil_prefix
  | some last =>
    rcases htail hterm hcheck hentries last hlast with hown | ⟨e, he, heq⟩
    · rw [← hown]
      exact hlog.isPrefix_of_getLast? hlast
    · have hsource : Logs.Sourced r source := (hinv.history.sourced _).of_isPrefix hreq.canon
      have hpos : 0 < n.log.length := by
        have hne : n.log ≠ [] := by
          intro hnil
          rw [hnil] at hlast
          cases hlast
        exact List.length_pos_iff.mpr hne
      have hlast' : n.log[n.log.length - 1]? = some last := by
        rw [← List.getLast?_eq_getElem?, hlast]
      have hsame := hsource.take_eq hlog he hlast' heq
      rw [Nat.sub_add_cancel hpos, List.take_length] at hsame
      rw [← hsame]
      exact (List.take_prefix _ _).trans hreq.canon

/-- A successful request leaves a part of the leader's log and nothing else, and cuts
nothing that the two logs share. -/
theorem appendEntries_sliced (hinv : Logs.Inv m r) (hidx : Logs.Indexed r)
    (hreq : Sliced m r src dst req source) (hlog : Logs.Sourced r n.log)
    (htail : TailKnown n req source) (hterm : n.state.term ≤ req.term)
    (hcheck : ClusterNode.consistencyCheck n.log req.prevLogIndex req.prevLogTerm = none) :
    ∃ log, ClusterNode.appendEntries n.log req.entries = (log, true) ∧
      log <+: r.history.canon req.term ∧
      ∀ x, x <+: r.history.canon req.term → x <+: n.log → x <+: log := by
  have hsource : Logs.Sourced r source := (hinv.history.sourced _).of_isPrefix hreq.canon
  have hmatch := logMatching_of_sourced hsource hlog
  have hprev : source.take req.prevLogIndex <+: n.log := by
    rw [hreq.prev_term] at hcheck
    exact ClusterNode.take_isPrefix_of_consistencyCheck hmatch hreq.prev_le hcheck
  have hend : req.prevLogIndex + req.entries.length ≤ source.length := by
    have hle := hreq.entries.length_le
    have hprev_le := hreq.prev_le
    rw [List.length_drop] at hle
    omega
  rcases ClusterNode.appendEntries_slice (indexed_of_sourced hidx hsource) hmatch req.entries
    hprev hreq.entries hreq.prev_le with ⟨hin, happend⟩ | ⟨hnot, happend⟩
  · exact ⟨n.log, happend, isPrefix_of_tailKnown hinv hreq hlog htail hterm hcheck hin,
      fun x _ hx => hx⟩
  · exact ⟨_, happend, (List.take_prefix _ _).trans hreq.canon,
      fun x hx hxlog => (shared_of_cut hreq.canon hend hnot hx hxlog).1⟩

/-- A failed consistency check cuts nothing that the two logs share. -/
theorem consistencyCheck_sliced (hinv : Logs.Inv m r) (hreq : Sliced m r src dst req source)
    (hlog : Logs.Sourced r n.log)
    (hcheck : ClusterNode.consistencyCheck n.log req.prevLogIndex req.prevLogTerm = some log) :
    log <+: n.log ∧ ∀ x, x <+: r.history.canon req.term → x <+: n.log → x <+: log := by
  have hsource : Logs.Sourced r source := (hinv.history.sourced _).of_isPrefix hreq.canon
  have hcases := ClusterNode.consistencyCheck_slice (logMatching_of_sourced hsource hlog)
    hreq.prev_le
  rw [← hreq.prev_term, hcheck] at hcases
  rcases hcases with ⟨-, hnone⟩ | ⟨-, hsame⟩ | ⟨hpos, -, hnot, hcut⟩
  · cases hnone
  · obtain rfl := Option.some.inj hsame
    exact ⟨List.prefix_rfl, fun x _ hx => hx⟩
  · obtain rfl := Option.some.inj hcut
    refine ⟨List.take_prefix _ _, fun x hx hxlog => ?_⟩
    have hshort := (shared_of_cut hreq.canon hreq.prev_le hnot hx hxlog).2
    exact prefix_take_self hxlog (by omega)

/-- What the follower may commit of its new log was committed by the sender. -/
theorem take_isPrefix_of_sliced (hreq : Sliced m r src dst req source)
    (hpre : log <+: r.history.canon req.term) {k : Nat} (hk : k ≤ req.leaderCommit) :
    log.take k <+: source.take req.leaderCommit := by
  have hsource : source.take req.leaderCommit <+: r.history.canon req.term :=
    (List.take_prefix _ _).trans hreq.canon
  refine List.prefix_of_prefix_length_le ((List.take_prefix _ _).trans hpre) hsource ?_
  rw [List.length_take_of_le hreq.commit_le]
  exact (List.length_take_le _ _).trans hk

end Append

/-! ## Append responses -/

section Response

variable {i src : NodeId} {resp : AppendResponse} {n : ClusterNode Value}

/-- The node and the peers that are counted at position `c` form a majority. -/
theorem majority_of_replicatedAt (hkeys : n.peerStatus.map Prod.fst = m.peers i)
    (hi : i ∈ m.ids) {c : Nat} (hc : (n.peerStatus.length + 1) / 2 + 1 ≤ n.replicatedAt c) :
    ∃ Q, Majority m.universe Q ∧
      ∀ v ∈ Q, v = i ∨ ∃ p ∈ n.peerStatus, p.1 = v ∧ c ≤ p.2.matchIndex := by
  obtain ⟨held, hheld⟩ : ∃ held, held = n.peerStatus.filter fun p => p.2.matchIndex ≥ c :=
    ⟨_, rfl⟩
  have hcount : n.replicatedAt c = 1 + held.length := by rw [ClusterNode.replicatedAt, hheld]
  have hsub : (held.map Prod.fst).Sublist (m.peers i) := by
    rw [← hkeys, hheld]
    exact List.filter_sublist.map _
  have hnodup : (held.map Prod.fst).Nodup := (m.nodup.filter _).sublist hsub
  have hnot : i ∉ (held.map Prod.fst).toFinset := by
    rw [List.mem_toFinset]
    intro hin
    have hpeer := hsub.subset hin
    simp [Membership.peers] at hpeer
  have hlen : n.peerStatus.length = (m.peers i).length := by rw [← hkeys, List.length_map]
  have hids := System.length_peers m hi
  refine ⟨insert i (held.map Prod.fst).toFinset, ⟨?_, ?_⟩, fun v hv => ?_⟩
  · refine Finset.insert_subset (List.mem_toFinset.mpr hi) fun v hv => ?_
    have hpeer := hsub.subset (List.mem_toFinset.mp hv)
    exact List.mem_toFinset.mpr (List.mem_filter.mp hpeer).1
  · rw [Finset.card_insert_of_notMem hnot, List.toFinset_card_of_nodup hnodup, List.length_map,
      Membership.universe, List.toFinset_card_of_nodup m.nodup]
    omega
  · refine (Finset.mem_insert.mp hv).imp_right fun hin => ?_
    obtain ⟨p, hp, rfl⟩ := List.mem_map.mp (List.mem_toFinset.mp hin)
    rw [hheld, List.mem_filter, decide_eq_true_eq] at hp
    exact ⟨p, hp.1, rfl, hp.2⟩

/-- What a leader may commit is committed in the protocol. -/
theorem committed_of_commitsAt (hlead : Leading m r i n)
    (hkeys : n.peerStatus.map Prod.fst = m.peers i)
    (hcanon : n.log = r.history.canon n.state.term) {c : Nat} (hc : n.CommitsAt c) :
    Logs.Committed m r n.state.term (c - 1) := by
  obtain ⟨e, he, hterm⟩ := hc.entry
  -- the recorded positions are backed by acknowledgements of the present term
  obtain ⟨Q, hQ, hheld⟩ := majority_of_replicatedAt hkeys hlead.member hc.majority
  have habove := hc.above
  refine ⟨⟨e, hcanon ▸ he, hterm⟩, Q, hQ, fun v hv => ?_⟩
  rcases hheld v hv with rfl | ⟨p, hp, rfl, hmatch⟩
  · have hown := hlead.own
    have hlen := hc.le_length
    omega
  · have hack := hlead.matched p hp
    omega

theorem leading_recordPeer (hlead : Leading m r i n) (hnew : resp.matchIndex < u64Max)
    (hmatch : resp.success = true → resp.matchIndex ≤ (r.replica src).ack n.state.term ∨
      ∀ p ∈ n.peerStatus, p.1 = src → resp.matchIndex ≤ p.2.matchIndex) :
    Leading m r i (n.recordPeer src resp) where
  member := hlead.member
  own := hlead.own
  next := by
    intro p hp
    obtain ⟨q, hq, rfl⟩ := List.mem_map.mp hp
    have hone := hlead.next q hq
    split_ifs with hkey
    · dsimp only [ClusterNode.recordResponse]
      split_ifs
      · have hadd : wrappingAdd resp.matchIndex 1 = resp.matchIndex + 1 :=
          ClusterNode.wrappingAdd_one_of_lt (by unfold u64Max at hnew; omega)
        dsimp only
        omega
      · dsimp only
        omega
      · exact hone
    · exact hone
  matched := by
    intro p hp
    obtain ⟨q, hq, rfl⟩ := List.mem_map.mp hp
    have hold := hlead.matched q hq
    split_ifs with hkey
    · dsimp only [ClusterNode.recordResponse]
      split_ifs with hsuccess
      · rcases hmatch hsuccess with hack | hless
        · rw [hkey]
          exact hack
        · exact (hless q hq hkey).trans hold
      · exact hold
      · exact hold
    · exact hold

end Response

end Wardex.Cluster
