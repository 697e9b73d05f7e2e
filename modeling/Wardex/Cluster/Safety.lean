import Wardex.Cluster.Refinement

/-! State-machine safety: in runs that keep to the replication rules, what two nodes have
committed agrees, and nothing that is committed is ever lost. -/

namespace Wardex.Cluster

open Wardex.Lib

variable {Value : Type}

/-! ## The start -/

namespace PeerTable

theorem keys_foldl_insert (status : PeerStatus) (peers : List NodeId) (hnodup : peers.Nodup)
    (t : PeerTable) (hnew : ∀ p ∈ peers, p ∉ t.map Prod.fst) :
    (peers.foldl (fun t p => t.insert p status) t).map Prod.fst = t.map Prod.fst ++ peers := by
  induction peers generalizing t with
  | nil => rw [List.foldl_nil, List.append_nil]
  | cons p peers ih =>
    obtain ⟨hp, hrest⟩ := List.nodup_cons.mp hnodup
    have hinsert : t.insert p status = t ++ [(p, status)] := by
      have hnot := hnew p (List.mem_cons_self ..)
      rw [insert, if_neg]
      simpa using hnot
    rw [List.foldl_cons, hinsert, ih hrest, List.map_append, List.append_assoc]
    · rfl
    · intro q hq hin
      rw [List.map_append, List.mem_append] at hin
      rcases hin with hold | hself
      · exact hnew q (List.mem_cons_of_mem _ hq) hold
      · have hqp : q = p := by simpa using hself
        exact hp (hqp ▸ hq)

end PeerTable

theorem sim_new (m : Membership) : Sim m Replicas.new (System.new m : System Value) where
  indexed := fun _ => ⟨IndexedFrom.nil, (by decide : 0 < u64Max)⟩
  leaders := by
    intro t i
    constructor
    · intro h
      cases h
    · intro h
      cases h
  nodes := fun i =>
    { term := rfl
      log := rfl
      commit := rfl
      votes := by
        ext v
        simp [System.new, VoteHistory.voteSet, VoteHistory.new, Replicas.new]
      keys := PeerTable.keys_foldl_insert _ _ (m.nodup.filter _) [] (fun _ _ h => by cases h)
      leading := fun hrole => by cases hrole }
  rounds := fun i round h => by cases h
  messages := fun msg h => by cases h

/-! ## Runs -/

/-- A state of the system together with a later state of the protocol than `r`. -/
def Reached (m : Membership) (r : Logs Value) (s : System Value) : Prop :=
  System.Inv m s ∧ ∃ r', Logs.Inv m r' ∧ Sim m r' s ∧ Logs.Extends r r'

theorem Reached.step {m : Membership} {r : Logs Value} {s : System Value} (h : Reached m r s)
    (e : Event Value) (he : Governed m s e) : Reached m r (s.step m e) := by
  obtain ⟨hsys, r', hinv, hsim, hext⟩ := h
  obtain ⟨helect, hwhole, hkeeps⟩ := he
  obtain ⟨r'', hsteps, hsim'⟩ := hsim.step hinv hsys e helect hwhole hkeeps
  obtain ⟨hinv', hext'⟩ := hsteps.inv hinv
  refine ⟨hsys.step e (fun i hi => ?_) helect, r'', hinv', hsim', hext.trans hext'⟩
  subst hi
  exact hkeeps

/-- **State-machine safety.**  In a run that keeps to the replication rules, two nodes that
have committed position `i`, at whatever two moments, hold the same entry there, and a node
keeps what it has committed. -/
theorem committed_agree (m : Membership) (es fs : List (Event Value))
    (hrun : Along (System.step m) (Governed m) (System.new m) (es ++ fs)) (a b : NodeId) :
    let s := run (System.step m) (System.new m : System Value) es
    let s' := run (System.step m) (System.new m : System Value) (es ++ fs)
    (∀ i, 1 ≤ i → i ≤ (s.node a).state.commitIndex → i ≤ (s'.node b).state.commitIndex →
        ∃ e, (s.node a).log[i - 1]? = some e ∧ (s'.node b).log[i - 1]? = some e) ∧
      (s.node a).state.commitIndex ≤ (s'.node a).state.commitIndex ∧
      (s.node a).log.take (s.node a).state.commitIndex <+: (s'.node a).log := by
  intro s s'
  have hstart : Reached m Replicas.new (System.new m : System Value) :=
    ⟨System.inv_new m, Replicas.new, Replicas.inv_new, sim_new m, Replicas.Extends.refl _⟩
  obtain ⟨hfirst, hrest⟩ := Along.append.mp hrun
  have hs : Reached m Replicas.new s :=
    run_invariant (fun _ e hi he => hi.step e he) hstart hfirst
  obtain ⟨hsys, r, hinv, hsim, -⟩ := hs
  -- the later state is reached from the protocol state of the earlier one
  have hlater : Reached m r s' := by
    have he : s' = run (System.step m) s fs := run_append ..
    rw [he]
    exact run_invariant (fun _ e hi he => hi.step e he)
      ⟨hsys, r, hinv, hsim, Replicas.Extends.refl r⟩ hrest
  obtain ⟨-, r', hinv', hsim', hext⟩ := hlater
  have hlog : ∀ n, (s.node n).log = (r.replica n).log := fun n => (hsim.nodes n).log
  have hlog' : ∀ n, (s'.node n).log = (r'.replica n).log := fun n => (hsim'.nodes n).log
  have hcommit : ∀ n, (s.node n).state.commitIndex = (r.replica n).commit :=
    fun n => (hsim.nodes n).commit
  have hcommit' : ∀ n, (s'.node n).state.commitIndex = (r'.replica n).commit :=
    fun n => (hsim'.nodes n).commit
  have hkeep : (s.node a).state.commitIndex ≤ (s'.node a).state.commitIndex := by
    rw [hcommit, hcommit']
    exact hext.commit a
  refine ⟨fun i hi ha hb => ?_, hkeep, ?_⟩
  · have hagree := hext.agree hinv hinv' ((hcommit a) ▸ ha) ((hcommit' b) ▸ hb)
    rw [← hlog, ← hlog'] at hagree
    have hroom : i - 1 < (s.node a).log.length := by
      have hle := (hinv.replica a).committed.1
      rw [← hlog, ← hcommit] at hle
      omega
    refine ⟨(s.node a).log[i - 1], List.getElem?_eq_getElem hroom, ?_⟩
    have hin : ((s.node a).log.take i)[i - 1]? = some (s.node a).log[i - 1] := by
      rw [List.getElem?_take_of_lt (by omega)]
      exact List.getElem?_eq_getElem hroom
    rw [hagree] at hin
    exact getElem?_of_take hin
  · have hagree := hext.agree hinv hinv' le_rfl (hext.commit a)
    rw [hlog, hlog', hcommit, hagree]
    exact List.take_prefix _ _

/-- The leader of `electFirst` replicates an entry to one peer and commits it. -/
def commitFirst : List (Event String) :=
  electFirst ++ [.appendEntry ⟨"n1"⟩ "t1" .alertCreated "a", .sendAppend ⟨"n1"⟩ ⟨"n2"⟩,
    .deliver 2, .deliver 3]

theorem committed_agree_first :
    let s := run (System.step threeNodes) (System.new threeNodes) commitFirst
    let s' := run (System.step threeNodes) (System.new threeNodes)
      (commitFirst ++ [.sendAppend ⟨"n1"⟩ ⟨"n2"⟩, .deliver 4])
    (s.node ⟨"n1"⟩).state.commitIndex = 1 ∧ (s'.node ⟨"n2"⟩).state.commitIndex = 1 ∧
      ∃ e, (s.node ⟨"n1"⟩).log[0]? = some e ∧ (s'.node ⟨"n2"⟩).log[0]? = some e := by
  have helect : Along (System.step threeNodes) (System.PromotedByMajority threeNodes)
      (System.new threeNodes) (commitFirst ++ [.sendAppend ⟨"n1"⟩ ⟨"n2"⟩, .deliver 4]) :=
    System.promotedByMajority_of_keepsElection (by decide)
  have hkeeps : Along (System.step threeNodes) (fun s e => Uncompacted e ∧ KeepsReplication s e)
      (System.new threeNodes) (commitFirst ++ [.sendAppend ⟨"n1"⟩ ⟨"n2"⟩, .deliver 4]) := by
    decide
  refine ⟨by decide, by decide, ?_⟩
  exact (committed_agree threeNodes commitFirst [.sendAppend ⟨"n1"⟩ ⟨"n2"⟩, .deliver 4]
    (helect.and hkeeps) ⟨"n1"⟩ ⟨"n2"⟩).1 1 le_rfl (by decide) (by decide)

/-- `n2` leads term 1 and keeps an entry to itself.  It answers the empty heartbeat of `n1`,
the leader of term 2, with the length of its log, and `n1` commits its own first entry on that
count.  Elected again, `n2` replicates its old entry and commits it at the same position. -/
theorem committed_disagree :
    let es : List (Event String) :=
      [.startElection ⟨"n2"⟩, .sendVoteRequest ⟨"n2"⟩, .deliver 0, .deliver 1,
        .voteRpcFailed ⟨"n2"⟩, .finishElection ⟨"n2"⟩,
        .appendEntry ⟨"n2"⟩ "t1" .alertCreated "a", .startElection ⟨"n1"⟩,
        .voteRpcFailed ⟨"n1"⟩, .sendVoteRequest ⟨"n1"⟩, .deliver 2, .deliver 3,
        .finishElection ⟨"n1"⟩, .sendAppend ⟨"n1"⟩ ⟨"n2"⟩, .deliver 4,
        .appendEntry ⟨"n1"⟩ "t2" .alertCreated "b", .deliver 5, .startElection ⟨"n2"⟩,
        .voteRpcFailed ⟨"n2"⟩, .sendVoteRequest ⟨"n2"⟩, .deliver 6, .deliver 7,
        .finishElection ⟨"n2"⟩, .appendEntry ⟨"n2"⟩ "t3" .alertCreated "c",
        .sendAppend ⟨"n2"⟩ ⟨"n3"⟩, .deliver 8, .deliver 9, .sendAppend ⟨"n2"⟩ ⟨"n3"⟩,
        .deliver 10, .deliver 11]
    let s := run (System.step threeNodes) (System.new threeNodes) es
    Along (System.step threeNodes)
        (fun s e => System.PromotedByMajority threeNodes s e ∧ Uncompacted e)
        (System.new threeNodes) es ∧
      (s.promotions.map Prod.snd).Nodup ∧
      1 ≤ (s.node ⟨"n1"⟩).state.commitIndex ∧ 1 ≤ (s.node ⟨"n2"⟩).state.commitIndex ∧
      (s.node ⟨"n1"⟩).log[0]? = some ⟨1, 2, "t2", .alertCreated, "b"⟩ ∧
      (s.node ⟨"n2"⟩).log[0]? = some ⟨1, 1, "t1", .alertCreated, "a"⟩ := by
  intro es s
  refine ⟨Along.and ?_ (by decide), by decide, by decide, by decide, by decide, by decide⟩
  exact System.promotedByMajority_of_keepsElection (by decide)

end Wardex.Cluster
