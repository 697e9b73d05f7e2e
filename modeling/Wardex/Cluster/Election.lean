import Mathlib.Data.Finset.Card
import Wardex.Cluster.Network

/-! Election safety: what a promoted node has behind it, and when two leaders of one term
are the same node. -/

namespace Wardex.Cluster

open Wardex.Lib

variable {Value : Type}

/-- Only `become_leader` makes a leader, and a leader that stays one keeps its term. -/
theorem ClusterNode.leader_of_after (n : ClusterNode Value) {op : NodeOp Value}
    (hop : op ≠ .becomeLeader) (h : (n.after op).state.role = .leader) :
    n.state.role = .leader ∧ (n.after op).state.term = n.state.term := by
  cases op with
  | startElection => cases h
  | becomeLeader => exact absurd rfl hop
  | prepareAppend peerId => exact ⟨h, rfl⟩
  | compactLog upToIndex => exact ⟨h, rfl⟩
  | markPeerUnreachable peerId => exact ⟨h, rfl⟩
  | appendEntry now entryType data =>
    have hs : (n.after (.appendEntry now entryType data)).state = n.state :=
      n.appendEntry_state now entryType data
    rw [hs] at h ⊢
    exact ⟨h, rfl⟩
  | handleVoteRequest req =>
    simp only [after, apply, handleVoteRequest] at h ⊢
    split_ifs at h ⊢ <;> first | exact ⟨h, rfl⟩ | cases h
  | handleAppend req =>
    simp only [after, apply] at h ⊢
    rcases n.handleAppend_cases req with
      ⟨-, he⟩ | ⟨-, log, -, he⟩ | ⟨-, -, log, -, he⟩ | ⟨-, -, log, -, he⟩ <;> rw [he] at h ⊢
    · exact ⟨h, rfl⟩
    all_goals cases h
  | handleAppendResponse peerId resp =>
    simp only [after, apply, handleAppendResponse] at h ⊢
    split_ifs at h ⊢
    · exact ⟨h, rfl⟩
    · exact ⟨h, rfl⟩
  | handleInstallSnapshot req =>
    simp only [after, apply, handleInstallSnapshot] at h ⊢
    split_ifs at h ⊢ <;> first | exact ⟨h, rfl⟩ | cases h

theorem ClusterNode.after_config (n : ClusterNode Value) (op : NodeOp Value) :
    (n.after op).config = n.config := by
  cases op with
  | handleAppend req =>
    simp only [after, apply]
    rcases n.handleAppend_cases req with
      ⟨-, he⟩ | ⟨-, log, -, he⟩ | ⟨-, -, log, -, he⟩ | ⟨-, -, log, -, he⟩ <;> rw [he] <;> rfl
  | _ =>
    simp only [after, apply, startElection, handleVoteRequest, becomeLeader, appendEntry,
      handleAppendResponse, handleInstallSnapshot, compactLog, markPeerUnreachable]
    try split_ifs
    all_goals rfl

namespace System

variable {m : Membership} {s s' : System Value}

theorem votes_subset_call (s : System Value) (i : NodeId) (op : NodeOp Value) (v : NodeId) :
    s.votes v ⊆ (s.call i op).votes v := by
  by_cases hv : v = i
  · subst hv
    rw [votes, votes, call_voters_self, VoteHistory.step_voteSet]
    exact Set.subset_union_left
  · rw [votes, votes, call_voters_ne s hv]

theorem node_call_self (s : System Value) (i : NodeId) (op : NodeOp Value) :
    (s.call i op).node i = (s.node i).after op :=
      congrArg VoteHistory.node (s.call_voters_self i op)

theorem node_call_ne (s : System Value) {i j : NodeId} (h : j ≠ i) (op : NodeOp Value) :
    (s.call i op).node j = s.node j := congrArg VoteHistory.node (s.call_voters_ne h op)

/-! ## What each part of the system shows about the votes -/

section Evidence

variable (m : Membership) (votes : NodeId → Set (Nat × NodeId))

def ElectedIn (t : Nat) (i : NodeId) : Prop := Ballot.Elected m.ids.toFinset votes t i

/-- A vote request names its sender, and a granting response is backed by the vote. -/
def MessageSound : Message Value → Prop
  | .voteRequest src _ req => req.candidateId = src
  | .voteResponse src dst req resp =>
    resp.voteGranted = true → req.candidateId = dst → (req.term, dst) ∈ votes src
  | _ => True

/-- The tally counts voters that are not asked again. -/
structure RoundSound (i : NodeId) (r : ElectionRound) : Prop where
  member : i ∈ m.ids
  candidate : r.request.candidateId = i
  pending_nodup : r.pending.Nodup
  pending_members : ∀ p ∈ r.pending, p ∈ m.ids
  tally : ∃ S : Finset NodeId, S.card = r.votes ∧ S ⊆ m.ids.toFinset ∧
    ∀ v ∈ S, (r.request.term, i) ∈ votes v ∧ v ∉ r.pending

variable {m votes} {votes' : NodeId → Set (Nat × NodeId)}

theorem MessageSound.mono (h : ∀ v, votes v ⊆ votes' v) {msg : Message Value}
    (hm : MessageSound votes msg) : MessageSound votes' msg := by
  cases msg with
  | voteResponse src dst req resp => exact fun hg hc => h src (hm hg hc)
  | _ => exact hm

theorem RoundSound.mono (h : ∀ v, votes v ⊆ votes' v) {i : NodeId} {r : ElectionRound}
    (hr : RoundSound m votes i r) : RoundSound m votes' i r := by
  obtain ⟨S, hcard, hS, hv⟩ := hr.tally
  exact { hr with tally := ⟨S, hcard, hS, fun v hvS => ⟨h v (hv v hvS).1, (hv v hvS).2⟩⟩ }

end Evidence

structure Inv (m : Membership) (s : System Value) : Prop where
  sound : ∀ i, (s.voters i).Sound
  config : ∀ i, (s.node i).config = m.config i
  messages : ∀ msg ∈ s.network, MessageSound s.votes msg
  rounds : ∀ i r, s.rounds i = some r → RoundSound m s.votes i r
  promotions : ∀ i t, (i, t) ∈ s.promotions → ElectedIn m s.votes t i
  leaders : ∀ i, (s.node i).state.role = .leader → (i, (s.node i).state.term) ∈ s.promotions

theorem inv_new (m : Membership) : Inv m (new m : System Value) where
  sound := fun i => VoteHistory.sound_new (m.config i)
  config := fun _ => rfl
  messages := fun msg h => by cases h
  rounds := fun i r h => by cases h
  promotions := fun i t h => by cases h
  leaders := fun i h => by cases h

/-! ## What each kind of change keeps -/

namespace Inv

theorem voters_call (h : Inv m s) (i : NodeId) (op : NodeOp Value)
    (hop : (s.node i).NoTermOverflow op) :
    (∀ j, ((s.call i op).voters j).Sound) ∧ ∀ j, ((s.call i op).node j).config = m.config j := by
  constructor <;> intro j <;> by_cases hj : j = i
  · subst hj
    rw [call_voters_self]
    exact (h.sound j).step op hop
  · rw [call_voters_ne s hj]
    exact h.sound j
  · subst hj
    rw [node, call_voters_self]
    exact ((s.node j).after_config op).trans (h.config j)
  · rw [node, call_voters_ne s hj]
    exact h.config j

theorem call (h : Inv m s) (i : NodeId) (op : NodeOp Value) (hop : (s.node i).NoTermOverflow op)
    (hne : op ≠ .becomeLeader) : Inv m (s.call i op) where
  sound := (h.voters_call i op hop).1
  config := (h.voters_call i op hop).2
  messages := fun msg hm => (h.messages msg hm).mono (s.votes_subset_call i op)
  rounds := fun j r hr => (h.rounds j r hr).mono (s.votes_subset_call i op)
  promotions := fun j t hp => (h.promotions j t hp).mono (s.votes_subset_call i op)
  leaders := by
    intro j hrole
    by_cases hj : j = i
    · subst hj
      rw [node_call_self] at hrole ⊢
      obtain ⟨hold, hterm⟩ := (s.node j).leader_of_after hne hrole
      rw [hterm]
      exact h.leaders j hold
    · rw [node_call_ne s hj] at hrole ⊢
      exact h.leaders j hrole

theorem send (h : Inv m s) {msg : Message Value} (hm : MessageSound s.votes msg) :
    Inv m (s.send msg) where
  sound := h.sound
  config := h.config
  messages := by
    intro msg' hin
    rcases List.mem_append.mp hin with hold | hnew
    · exact h.messages msg' hold
    · rw [List.mem_singleton.mp hnew]
      exact hm
  rounds := h.rounds
  promotions := h.promotions
  leaders := h.leaders

theorem setRound (h : Inv m s) (i : NodeId) {round : Option ElectionRound}
    (hr : ∀ r, round = some r → RoundSound m s.votes i r) : Inv m (s.setRound i round) where
  sound := h.sound
  config := h.config
  messages := h.messages
  rounds := by
    intro j r hj
    by_cases hji : j = i
    · subst hji
      rw [setRound_rounds_self] at hj
      exact hr r hj
    · rw [setRound_rounds_ne s hji] at hj
      exact h.rounds j r hj
  promotions := h.promotions
  leaders := h.leaders

/-- A promotion needs the votes of a majority in the promoted node's present term. -/
theorem promote (h : Inv m s) {i : NodeId} (he : ElectedIn m s.votes (s.node i).state.term i) :
    Inv m { s.call i .becomeLeader with
      promotions := s.promotions ++ [(i, (s.node i).state.term)] } where
  sound := (h.voters_call i .becomeLeader trivial).1
  config := (h.voters_call i .becomeLeader trivial).2
  messages := fun msg hm => (h.messages msg hm).mono (s.votes_subset_call i _)
  rounds := fun j r hr => (h.rounds j r hr).mono (s.votes_subset_call i _)
  promotions := by
    intro j t hp
    rcases List.mem_append.mp hp with hold | hnew
    · exact (h.promotions j t hold).mono (s.votes_subset_call i _)
    · obtain ⟨rfl, rfl⟩ := Prod.mk.inj (List.mem_singleton.mp hnew)
      exact he.mono (s.votes_subset_call j _)
  leaders := by
    intro j hrole
    by_cases hj : j = i
    · subst hj
      have hnode : (s.call j .becomeLeader).node j = (s.node j).after .becomeLeader :=
        s.node_call_self j _
      refine List.mem_append_right _ (List.mem_singleton.mpr ?_)
      exact congrArg (fun n => (j, n.state.term)) hnode
    · have hnode : (s.call i .becomeLeader).node j = s.node j := s.node_call_ne hj _
      refine List.mem_append_left _ ?_
      exact hnode.symm ▸ h.leaders j (hnode ▸ hrole)

end Inv

/-! ## Steps -/

theorem length_peers (m : Membership) {i : NodeId} (h : i ∈ m.ids) :
    (m.peers i).length + 1 = m.ids.length := by
  have herase : m.peers i = m.ids.erase i := by
    rw [m.nodup.erase_eq_filter]
    exact List.filter_congr fun p _ => by simp [bne, beq_eq_decide]
  have hpos := List.length_pos_of_mem h
  rw [herase, List.length_erase_of_mem h]
  omega

/-- A tally that reaches the driver's threshold is a majority of the members. -/
theorem RoundSound.elected {votes : NodeId → Set (Nat × NodeId)} {i : NodeId}
    {r : ElectionRound} (h : RoundSound m votes i r) (hr : majority m i ≤ r.votes) :
    ElectedIn m votes r.request.term i := by
  obtain ⟨S, hcard, hS, hv⟩ := h.tally
  refine ⟨S, ⟨hS, ?_⟩, fun v hvS => (hv v hvS).1⟩
  have hlen := length_peers m h.member
  unfold majority at hr
  rw [List.toFinset_card_of_nodup m.nodup]
  omega

/-- The first round: the candidate's own vote, and all peers still to be asked. -/
theorem roundSound_start (h : Inv m s) {i : NodeId} (hi : i ∈ m.ids) :
    RoundSound m (s.call i .startElection).votes i
      { request := (s.node i).startElection.2, votes := 1, pending := m.peers i } where
  member := hi
  candidate := congrArg ClusterConfig.nodeId (h.config i)
  pending_nodup := m.nodup.filter _
  pending_members := fun p hp => (List.mem_filter.mp hp).1
  tally := by
    refine ⟨{i}, Finset.card_singleton i, ?_, fun v hv => ?_⟩
    · exact Finset.singleton_subset_iff.mpr (List.mem_toFinset.mpr hi)
    · obtain rfl := Finset.mem_singleton.mp hv
      refine ⟨?_, fun hp => by simp [Membership.peers] at hp⟩
      rw [votes, call_voters_self, VoteHistory.step_voteSet]
      refine Or.inr ?_
      have hname : (s.node v).startElection.2.candidateId = v :=
        congrArg ClusterConfig.nodeId (h.config v)
      exact congrArg some (Prod.ext rfl hname)

/-- One more peer has answered, or failed to. -/
theorem RoundSound.next {votes : NodeId → Set (Nat × NodeId)} {i peer : NodeId}
    {req : VoteRequest} {n : Nat} {rest : List NodeId} {granted : Bool}
    (h : RoundSound m votes i { request := req, votes := n, pending := peer :: rest })
    (hg : granted = true → (req.term, i) ∈ votes peer) :
    RoundSound m votes i
      { request := req, votes := if granted then n + 1 else n, pending := rest } where
  member := h.member
  candidate := h.candidate
  pending_nodup := h.pending_nodup.of_cons
  pending_members := fun p hp => h.pending_members p (List.mem_cons_of_mem _ hp)
  tally := by
    obtain ⟨S, hcard, hS, hv⟩ := h.tally
    have hrest : ∀ v ∈ S, (req.term, i) ∈ votes v ∧ v ∉ rest :=
      fun v hvS => ⟨(hv v hvS).1, fun hr => (hv v hvS).2 (List.mem_cons_of_mem _ hr)⟩
    cases granted with
    | false => exact ⟨S, hcard, hS, hrest⟩
    | true =>
      have hnew : peer ∉ S := fun hp => (hv peer hp).2 (List.mem_cons_self ..)
      refine ⟨insert peer S, ?_, ?_, fun v hvS => ?_⟩
      · rw [Finset.card_insert_of_notMem hnew, hcard]
        rfl
      · have hmember := h.pending_members peer (List.mem_cons_self ..)
        exact Finset.insert_subset (List.mem_toFinset.mpr hmember) hS
      · rcases Finset.mem_insert.mp hvS with rfl | hold
        · exact ⟨hg rfl, (List.nodup_cons.mp h.pending_nodup).1⟩
        · exact hrest v hold

/-- No election starts at the largest term, and a tally promotes a node only while the node
is still in the term of the tally. -/
def KeepsElection (m : Membership) (s : System Value) : Event Value → Prop
  | .startElection i => (s.node i).state.term + 1 < 2 ^ 64
  | .finishElection i => ∀ r, s.rounds i = some r → r.pending = [] → majority m i ≤ r.votes →
    (s.node i).state.term = r.request.term
  | _ => True

instance (m : Membership) (s : System Value) :
    (e : Event Value) → Decidable (KeepsElection m s e)
  | .startElection i => inferInstanceAs (Decidable ((s.node i).state.term + 1 < 2 ^ 64))
  | .finishElection i => inferInstanceAs (Decidable (∀ r ∈ s.rounds i, r.pending = [] →
      majority m i ≤ r.votes → (s.node i).state.term = r.request.term))
  | .sendVoteRequest .. | .voteRpcFailed .. | .appendEntry .. | .sendAppend ..
  | .appendRpcFailed .. | .sendSnapshot .. | .compactLog .. | .deliver .. => isTrue trivial

theorem Inv.receive (h : Inv m s) {msg : Message Value} (hmsg : MessageSound s.votes msg) :
    Inv m (s.receive msg) := by
  cases msg with
  | voteRequest src dst req =>
    refine (h.call dst (.handleVoteRequest req) trivial (by simp)).send fun hg hc => ?_
    obtain ⟨hle, -⟩ := ClusterNode.handleVoteRequest_granted hg
    have hterm := (ClusterNode.handleVoteRequest_term hle).2
    rw [votes, call_voters_self, VoteHistory.step_voteSet]
    refine Or.inr ?_
    have hcast : (s.node dst).castVote (.handleVoteRequest req) = some (req.term, src) := by
      rw [ClusterNode.castVote, if_pos hg, hterm, hc]
    exact hcast
  | voteResponse src dst req resp =>
    rw [System.receive, receiveVote]
    split
    · next request n peer rest hround =>
      by_cases hmatch : peer = src ∧ request = req
      · rw [if_pos hmatch]
        obtain ⟨rfl, rfl⟩ := hmatch
        have hr := h.rounds dst _ hround
        refine h.setRound dst fun r he => ?_
        cases he
        exact hr.next fun hg => hmsg hg hr.candidate
      · rwa [if_neg hmatch]
    · exact h
  | appendRequest src dst req source =>
    exact (h.call dst (.handleAppend req) trivial (by simp)).send trivial
  | appendResponse src dst resp =>
    exact h.call dst (.handleAppendResponse src resp) trivial (by simp)
  | installSnapshot src dst req =>
    exact h.call dst (.handleInstallSnapshot req) trivial (by simp)

/-- Each promotion has the votes of a majority in the present term of the promoted node. -/
def PromotedByMajority (m : Membership) (s : System Value) : Event Value → Prop
  | .finishElection i => ∀ r, s.rounds i = some r → r.pending = [] → majority m i ≤ r.votes →
    ElectedIn m s.votes (s.node i).state.term i
  | _ => True

theorem Inv.promotedByMajority (h : Inv m s) {e : Event Value} (he : KeepsElection m s e) :
    PromotedByMajority m s e := by
  cases e with
  | finishElection i =>
    intro r hround hpending htally
    rw [he r hround hpending htally]
    exact (h.rounds i r hround).elected htally
  | _ => trivial

theorem Inv.step (h : Inv m s) (e : Event Value)
    (hterm : ∀ i, e = .startElection i → (s.node i).state.term + 1 < 2 ^ 64)
    (he : PromotedByMajority m s e) : Inv m (s.step m e) := by
  cases e with
  | startElection i =>
    rw [System.step, System.startElection]
    split_ifs with henabled
    · refine (h.call i .startElection (hterm i rfl) (by simp)).setRound i fun r hr => ?_
      cases hr
      exact roundSound_start h henabled.1
    · exact h
  | sendVoteRequest i =>
    rw [System.step, System.sendVoteRequest]
    split
    · next req peer rest n hround => exact h.send (h.rounds i _ hround).candidate
    · exact h
  | voteRpcFailed i =>
    rw [System.step, System.voteRpcFailed]
    split
    · next req n peer rest hround =>
      refine (h.call i (.markPeerUnreachable peer) trivial (by simp)).setRound i fun r hr => ?_
      cases hr
      have hrest := (h.rounds i _ hround).next (fun hg : false = true => by cases hg)
      exact hrest.mono (s.votes_subset_call i _)
    · exact h
  | finishElection i =>
    rw [System.step, System.finishElection]
    split
    · next req n hround =>
      split_ifs with htally
      · refine Inv.setRound (h.promote (he _ hround rfl htally)) i (fun r hr => ?_)
        exact absurd hr (by simp)
      · exact h.setRound i fun r hr => by cases hr
    · exact h
  | appendEntry i now entryType data =>
    exact h.call i (.appendEntry now entryType data) trivial (by simp)
  | sendAppend i peer =>
    rw [System.step, System.sendAppend]
    split
    · exact h.send trivial
    · exact h
  | appendRpcFailed i peer => exact h.call i (.markPeerUnreachable peer) trivial (by simp)
  | sendSnapshot i peer =>
    rw [System.step, System.sendSnapshot]
    split
    · exact h.send trivial
    · exact h
  | compactLog i upToIndex => exact h.call i (.compactLog upToIndex) trivial (by simp)
  | deliver k =>
    rw [System.step]
    split
    · next msg hget => exact h.receive (h.messages msg (List.mem_of_getElem? hget))
    · exact h

theorem Inv.step_keepsElection (h : Inv m s) (e : Event Value) (he : KeepsElection m s e) :
    Inv m (s.step m e) := by
  refine h.step e (fun i hi => ?_) (h.promotedByMajority he)
  subst hi
  exact he

theorem promotedByMajority_of_keepsElection {es : List (Event Value)}
    (h : Along (step m) (KeepsElection m) (new m) es) :
    Along (step m) (PromotedByMajority m) (new m) es :=
  along_of_invariant (fun _ e hi he => hi.step_keepsElection e he)
    (fun _ _ hi he => hi.promotedByMajority he) (inv_new m) h

/-- A promotion stays recorded, so that leaders of different times can be compared. -/
theorem promotions_subset_step (m : Membership) (s : System Value) (e : Event Value) :
    s.promotions ⊆ (s.step m e).promotions := by
  cases e with
  | finishElection i =>
    rw [System.step, System.finishElection]
    split
    · split_ifs
      · exact List.subset_append_left _ _
      · exact List.Subset.refl _
    · exact List.Subset.refl _
  | deliver k =>
    rw [System.step]
    split
    · next msg _ =>
      cases msg with
      | voteResponse src dst req resp =>
        rw [System.receive, receiveVote]
        split
        · split_ifs <;> exact List.Subset.refl _
        · exact List.Subset.refl _
      | _ => exact List.Subset.refl _
    · exact List.Subset.refl _
  | _ =>
    simp only [System.step, System.startElection, System.sendVoteRequest, System.voteRpcFailed,
      System.sendAppend, System.sendSnapshot]
    try split
    all_goals exact List.Subset.refl _

end System

/-- **Election safety.**  In a run that never promotes a node past the term of its tally, and
starts no election at the largest term, two leaders of one term are the same node, at
whatever two moments of the run they lead. -/
theorem leader_unique (m : Membership) (es fs : List (Event Value))
    (hrun : Along (System.step m) (System.KeepsElection m) (System.new m) (es ++ fs))
    {a b : NodeId} {t : Nat} :
    let s := run (System.step m) (System.new m : System Value) es
    let s' := run (System.step m) (System.new m : System Value) (es ++ fs)
    (s.node a).state.role = .leader → (s.node a).state.term = t →
      (s'.node b).state.role = .leader → (s'.node b).state.term = t → a = b := by
  intro s s' ha hat hb hbt
  have hinv : ∀ {es : List (Event Value)},
      Along (System.step m) (System.KeepsElection m) (System.new m) es →
        System.Inv m (run (System.step m) (System.new m) es) :=
    fun h => run_invariant (fun _ e hi he => hi.step_keepsElection e he) (System.inv_new m) h
  have hs : System.Inv m s := hinv (Along.append.mp hrun).1
  have hs' : System.Inv m s' := hinv hrun
  -- the earlier promotion is still on record in the later state
  have hgrow : s.promotions ⊆ s'.promotions := by
    have he : s' = run (System.step m) s fs := run_append ..
    rw [he]
    exact run_relation (R := fun s s' => s.promotions ⊆ s'.promotions)
      (fun _ => List.Subset.refl _) (fun _ _ _ h h' => List.Subset.trans h h')
      (System.promotions_subset_step m) s fs
  have hpa := hs'.promotions a t (hgrow (hat ▸ hs.leaders a ha))
  have hpb := hs'.promotions b t (hbt ▸ hs'.leaders b hb)
  exact hpa.unique (fun v => (hs'.sound v).2) hpb

def threeNodes : Membership where
  ids := [⟨"n1"⟩, ⟨"n2"⟩, ⟨"n3"⟩]
  nodup := by decide
  batchSize := fun _ => 50

/-- The candidate collects one vote and does not reach the other peer. -/
def electFirst : List (Event String) :=
  [.startElection ⟨"n1"⟩, .sendVoteRequest ⟨"n1"⟩, .deliver 0, .deliver 1,
    .voteRpcFailed ⟨"n1"⟩, .finishElection ⟨"n1"⟩]

theorem leader_unique_elected :
    let s := run (System.step threeNodes) (System.new threeNodes) electFirst
    (s.node ⟨"n1"⟩).state.role = .leader ∧
      ∀ b, (s.node b).state.role = .leader → (s.node b).state.term = 1 → ⟨"n1"⟩ = b := by
  have hrun : Along (System.step threeNodes) (System.KeepsElection threeNodes)
      (System.new threeNodes) (electFirst ++ []) := by
    refine ⟨(by decide : 0 + 1 < 2 ^ 64), trivial, trivial, trivial, trivial, ?_, trivial⟩
    intro r hr _ _
    cases hr
    decide
  refine ⟨by decide, fun b => ?_⟩
  exact leader_unique threeNodes electFirst [] hrun (by decide) (by decide)

/-- While `n1` still waits for its last answer, `n3` wins the next term with the vote of
`n1`; the tally of the old term then makes `n1` a leader of the new one as well. -/
theorem leader_not_unique :
    let s := run (System.step threeNodes) (System.new threeNodes : System String)
      [.startElection ⟨"n1"⟩, .sendVoteRequest ⟨"n1"⟩, .deliver 0, .deliver 1,
        .startElection ⟨"n3"⟩, .voteRpcFailed ⟨"n3"⟩, .voteRpcFailed ⟨"n3"⟩,
        .finishElection ⟨"n3"⟩, .startElection ⟨"n3"⟩, .sendVoteRequest ⟨"n3"⟩, .deliver 2,
        .deliver 3, .voteRpcFailed ⟨"n3"⟩, .finishElection ⟨"n3"⟩, .voteRpcFailed ⟨"n1"⟩,
        .finishElection ⟨"n1"⟩]
    (s.node ⟨"n1"⟩).state.role = .leader ∧ (s.node ⟨"n3"⟩).state.role = .leader ∧
      (s.node ⟨"n1"⟩).state.term = (s.node ⟨"n3"⟩).state.term := by
  decide

end Wardex.Cluster
