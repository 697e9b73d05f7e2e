import Mathlib.Logic.Function.Iterate
import Wardex.Cluster.Commit
import Wardex.Cluster.Log

/-! A stable leader brings one follower up to date: the lossless exchange of append
requests and responses, and how many rounds of it suffice. -/

namespace Wardex.Cluster

open Wardex.Lib ClusterNode

variable {Value : Type}

/-- One round between a leader and a follower; without a request nothing happens. -/
def exchange (s : ClusterNode Value × ClusterNode Value) :
    ClusterNode Value × ClusterNode Value :=
  let (leader, follower) := s
  let id := follower.config.nodeId
  match leader.prepareAppend id with
  | none => s
  | some req =>
    let (follower, resp) := follower.handleAppend req
    (leader.handleAppendResponse id resp, follower)

/-! ## What a round keeps -/

/-- A leader with log `source` that will next send the follower the entries after `q`. -/
structure Replicates (source : List (ReplicatedEntry Value)) (batch : Nat) (id : NodeId)
    (s : ClusterNode Value × ClusterNode Value) (q : Nat) : Prop where
  role : s.1.state.role = .leader
  log : s.1.log = source
  batchSize : s.1.config.replicationBatchSize = batch
  follower : s.2.config.nodeId = id
  term : s.2.state.term ≤ s.1.state.term
  status : ∃ status, s.1.peerStatus.get id = some status ∧ status.nextIndex = q + 1

namespace Replicates

variable {source : List (ReplicatedEntry Value)} {batch : Nat} {id : NodeId}
  {s : ClusterNode Value × ClusterNode Value} {q : Nat}

theorem prepareAppend (h : Replicates source batch id s q) (hidx : IndexedFrom 0 source)
    (hlen : source.length < u64Max) (hq : q ≤ source.length) :
    s.1.prepareAppend id = some (s.1.sliceRequest q) := by
  obtain ⟨status, hget, hnext⟩ := h.status
  have hlog := h.log
  exact prepareAppend_eq h.role (hlog ▸ hidx) hget hnext (hlog ▸ hq) (hlog ▸ hlen)

theorem prepareAppend_past (h : Replicates source batch id s q) (hq : source.length < q) :
    s.1.prepareAppend id = none := by
  obtain ⟨status, hget, hnext⟩ := h.status
  refine ClusterNode.prepareAppend_past hget ?_
  rw [h.log, hnext]
  omega

/-- The leader's side of a round: only the status of the follower moves. -/
theorem respond (h : Replicates source batch id s q) {f : ClusterNode Value}
    {resp : AppendResponse} (hresp : resp.term = s.1.state.term)
    (hid : f.config.nodeId = id) (hterm : f.state.term = s.1.state.term) {q' : Nat}
    (hq' : ∀ status, status.nextIndex = q + 1 →
      (recordResponse status resp).nextIndex = q' + 1) :
    Replicates source batch id (s.1.handleAppendResponse id resp, f) q' := by
  obtain ⟨status, hget, hnext⟩ := h.status
  have hkeep : s.1.handleAppendResponse id resp =
      (s.1.recordPeer id resp).tryAdvanceCommit := by
    rw [handleAppendResponse, if_neg (by omega), hget]
    rfl
  rw [hkeep]
  refine ⟨h.role, h.log, h.batchSize, hid, hterm.le, recordResponse status resp, ?_,
    hq' status hnext⟩
  rw [tryAdvanceCommit_peerStatus, recordPeer, PeerTable.get_modify, hget]
  rfl

theorem exchange_eq (h : Replicates source batch id s q) (hidx : IndexedFrom 0 source)
    (hlen : source.length < u64Max) (hq : q ≤ source.length) :
    exchange s = (s.1.handleAppendResponse id (s.2.handleAppend (s.1.sliceRequest q)).2,
      (s.2.handleAppend (s.1.sliceRequest q)).1) := by
  unfold exchange
  simp only [h.follower, h.prepareAppend hidx hlen hq]

theorem exchange_rejected (h : Replicates source batch id s q)
    (hq : q ≤ source.length) (hmatch : LogMatching source s.2.log)
    {log : List (ReplicatedEntry Value)}
    (hcheck : consistencyCheck s.2.log q (termBefore source q) = some log) :
    0 < q ∧ ¬ source.take q <+: s.2.log ∧
      Replicates source batch id (s.1.handleAppendResponse id
          { term := s.1.state.term, success := false, matchIndex := log.length },
        { s.2.acceptLeader s.1.state.term s.1.config.nodeId with log := log }) (q - 1) ∧
      (log = s.2.log ∧ s.2.log.length < q ∨ log = s.2.log.take (q - 1)) := by
  have hdown : 0 < q → Replicates source batch id (s.1.handleAppendResponse id
        { term := s.1.state.term, success := false, matchIndex := log.length },
      { s.2.acceptLeader s.1.state.term s.1.config.nodeId with log := log }) (q - 1) := by
    intro hpos
    refine h.respond ?_ ?_ ?_ fun status hnext => ?_
    · rfl
    · exact h.follower
    · rfl
    · rw [recordResponse, if_neg Bool.false_ne_true, if_pos (by omega)]
      exact (congrArg (· - 1) hnext).trans (by omega)
  rcases consistencyCheck_slice hmatch hq with ⟨-, hnone⟩ | ⟨hshort, hsame⟩ | ⟨hpos, -, hne, hcut⟩
  · cases hnone.symm.trans hcheck
  · obtain rfl : log = s.2.log := Option.some.inj (hcheck.symm.trans hsame)
    refine ⟨by omega, fun hpre => ?_, hdown (by omega), Or.inl ⟨rfl, hshort⟩⟩
    have hle := hpre.length_le
    rw [List.length_take_of_le hq] at hle
    omega
  · obtain rfl : log = s.2.log.take (q - 1) := Option.some.inj (hcheck.symm.trans hcut)
    exact ⟨hpos, hne, hdown hpos, Or.inr rfl⟩

theorem take_add_length_take (source : List (ReplicatedEntry Value)) (q batch : Nat) :
    source.take (q + ((source.drop q).take batch).length) = source.take (q + batch) := by
  rw [List.take_add, List.take_add, List.length_take]
  congr 1
  rw [← List.take_take, List.take_length]

/-- A round either fails the consistency check and moves one position down, or runs the
entry loop to its end and moves to the end of the follower's log. -/
theorem exchange_cases (h : Replicates source batch id s q) (hidx : IndexedFrom 0 source)
    (hlen : source.length < u64Max) (hq : q ≤ source.length)
    (hmatch : LogMatching source s.2.log) (hfollower : s.2.log.length < u64Max) :
    (0 < q ∧ ¬ source.take q <+: s.2.log ∧ Replicates source batch id (exchange s) (q - 1) ∧
      ((exchange s).2.log = s.2.log ∧ s.2.log.length < q ∨
        (exchange s).2.log = s.2.log.take (q - 1))) ∨
    (source.take q <+: s.2.log ∧
      Replicates source batch id (exchange s) (exchange s).2.log.length ∧
      ((source.take (q + batch) <+: s.2.log ∧ (exchange s).2.log = s.2.log) ∨
        (¬ source.take (q + batch) <+: s.2.log ∧
          (exchange s).2.log = source.take (q + batch)))) := by
  have hstep := h.exchange_eq hidx hlen hq
  have hprev : (s.1.sliceRequest q).prevLogTerm = termBefore source q := by
    rw [sliceRequest, h.log]
  have hentries : (s.1.sliceRequest q).entries = (source.drop q).take batch := by
    rw [sliceRequest, h.log, h.batchSize]
  rcases s.2.handleAppend_cases (s.1.sliceRequest q) with
    ⟨hlt, -⟩ | ⟨-, log, hc, he⟩ | ⟨-, hc, log, ha, he⟩ | ⟨-, hc, log, ha, he⟩
  · exact absurd h.term (not_le.mpr hlt)
  · -- the follower rejects
    left
    rw [hprev] at hc
    rw [hstep, he]
    exact h.exchange_rejected hq hmatch hc
  all_goals
    rw [hprev] at hc
    have hpre := take_isPrefix_of_consistencyCheck hmatch hq hc
    have hloop := appendEntries_slice hidx hmatch _ hpre (List.take_prefix batch _) hq
    rw [take_add_length_take, ← hentries, ha] at hloop
  · rcases hloop with ⟨-, hcase⟩ | ⟨-, hcase⟩ <;> cases hcase
  · right
    have hbound : log.length < u64Max := by
      rcases hloop with ⟨-, hcase⟩ | ⟨-, hcase⟩
      · rwa [(Prod.mk.inj hcase).1]
      · rw [(Prod.mk.inj hcase).1, List.length_take]
        omega
    rw [hstep, he]
    refine ⟨hpre, ?_, ?_⟩
    · refine h.respond ?_ ?_ ?_ fun status _ => ?_
      · rfl
      · exact h.follower
      · rfl
      · rw [recordResponse, if_pos rfl]
        have hadd : wrappingAdd log.length 1 = log.length + 1 := by
          unfold u64Max at hbound
          exact wrappingAdd_one_of_lt (by omega)
        exact hadd
    · rcases hloop with ⟨hall, hcase⟩ | ⟨hall, hcase⟩
      · exact Or.inl ⟨hall, (Prod.mk.inj hcase).1⟩
      · exact Or.inr ⟨hall, (Prod.mk.inj hcase).1⟩

/-- A follower that holds the whole log keeps it. -/
theorem exchange_of_prefix (h : Replicates source batch id s q) (hidx : IndexedFrom 0 source)
    (hlen : source.length < u64Max) (hfollower : s.2.log.length < u64Max)
    (hpre : source <+: s.2.log) :
    (exchange s).2.log = s.2.log ∧ ∃ q', Replicates source batch id (exchange s) q' := by
  by_cases hq : q ≤ source.length
  · have hall : ∀ m, source.take m <+: s.2.log := fun m => (List.take_prefix m _).trans hpre
    rcases h.exchange_cases hidx hlen hq (LogMatching.of_isPrefix hpre) hfollower with
      ⟨-, hne, -⟩ | ⟨-, hr, ⟨-, hsame⟩ | ⟨hne, -⟩⟩
    · exact absurd (hall q) hne
    · exact ⟨hsame, _, hr⟩
    · exact absurd (hall _) hne
  · have hsame : exchange s = s := by
      unfold exchange
      simp only [h.follower, h.prepareAppend_past (not_le.mp hq)]
    exact ⟨congrArg (·.2.log) hsame, q, hsame.symm ▸ h⟩

end Replicates

/-! ## The number of rounds -/

/-- Requests that carry `n` entries in batches: `n / batch`, rounded up. -/
def batches (n batch : Nat) : Nat := (n + batch - 1) / batch

theorem batches_sub {n batch : Nat} (hn : 0 < n) (hbatch : 0 < batch) :
    batches (n - batch) batch + 1 ≤ batches n batch := by
  unfold batches
  have hsplit : (n + batch - 1) / batch = (n - 1) / batch + 1 := by
    rw [← Nat.add_div_right _ hbatch]
    congr 1
    omega
  rw [hsplit]
  by_cases h : batch ≤ n
  · rw [show n - batch + batch - 1 = n - 1 by omega]
  · rw [show n - batch + batch - 1 = batch - 1 by omega, Nat.div_eq_of_lt (by omega)]
    exact Nat.le_add_left 1 _

theorem batches_mono {m n : Nat} (h : m ≤ n) (batch : Nat) :
    batches m batch ≤ batches n batch :=
  Nat.div_le_div_right (by omega)

/-- How far the exchange has come, with the number of rounds still needed. -/
inductive Progress (source : List (ReplicatedEntry Value)) (batch : Nat) (id : NodeId)
    (s : ClusterNode Value × ClusterNode Value) : Nat → Prop
  /-- Walking down: all that follows `q` on the follower is gone, unless `q` is the start. -/
  | probing {q k : Nat} (hr : Replicates source batch id s q) (hq : q ≤ source.length)
      (hmatch : LogMatching source s.2.log)
      (hcut : q < source.length → s.2.log.length ≤ q)
      (hk : q + batches source.length batch ≤ k) : Progress source batch id s k
  /-- Walking up: the follower holds exactly the first `q` entries. -/
  | synced {q k : Nat} (hr : Replicates source batch id s q) (hq : q < source.length)
      (hlog : s.2.log = source.take q) (hk : batches (source.length - q) batch ≤ k) :
      Progress source batch id s k
  | done {q k : Nat} (hr : Replicates source batch id s q) (hpre : source <+: s.2.log) :
      Progress source batch id s k

namespace Progress

variable {source : List (ReplicatedEntry Value)} {batch : Nat} {id : NodeId}
  {s : ClusterNode Value × ClusterNode Value} {k : Nat}

theorem sendable (h : Progress source batch id s k) (hidx : IndexedFrom 0 source)
    (hlen : source.length < u64Max) (hmissing : ¬ source <+: s.2.log) :
    (s.1.prepareAppend id).isSome := by
  cases h with
  | probing hr hq =>
    rw [hr.prepareAppend hidx hlen hq]
    rfl
  | synced hr hq =>
    rw [hr.prepareAppend hidx hlen hq.le]
    rfl
  | done _ hpre => exact absurd hpre hmissing

theorem prefix_of_zero (h : Progress source batch id s 0) (hbatch : 0 < batch) :
    source <+: s.2.log := by
  have hpos : ∀ {n}, 0 < n → 0 < batches n batch := fun hn =>
    (Nat.succ_pos _).trans_le (batches_sub hn hbatch)
  cases h with
  | probing _ _ _ _ hk =>
    have hnil : source.length = 0 := by
      by_contra hne
      have := hpos (Nat.pos_of_ne_zero hne)
      omega
    rw [List.length_eq_zero_iff.mp hnil]
    exact List.nil_prefix
  | synced _ hq _ hk =>
    have := hpos (Nat.sub_pos_of_lt hq)
    omega
  | done _ hpre => exact hpre

/-- Once the follower holds exactly the first `q` entries, a round adds a batch. -/
theorem exchange_synced {q : Nat} (hr : Replicates source batch id s q)
    (hidx : IndexedFrom 0 source) (hlen : source.length < u64Max) (hbatch : 0 < batch)
    (hq : q < source.length) (hlog : s.2.log = source.take q)
    (hk : batches (source.length - q) batch ≤ k + 1) :
    Progress source batch id (exchange s) k := by
  have hlength : s.2.log.length = q := by rw [hlog, List.length_take_of_le hq.le]
  have hpre : source.take q <+: s.2.log := hlog ▸ List.prefix_rfl
  have hmatch : LogMatching source s.2.log :=
    hlog ▸ (LogMatching.of_isPrefix List.prefix_rfl).take_right q
  rcases hr.exchange_cases hidx hlen hq.le hmatch (by omega) with
    ⟨-, hne, -⟩ | ⟨-, hr', ⟨hall, -⟩ | ⟨-, hgrown⟩⟩
  · exact absurd hpre hne
  · have := hall.length_le
    rw [List.length_take] at this
    omega
  · by_cases hend : source.length ≤ q + batch
    · refine .done hr' ?_
      rw [hgrown, List.take_of_length_le hend]
    · have hq' : (exchange s).2.log.length = q + batch := by
        rw [hgrown, List.length_take_of_le (by omega)]
      refine .synced (hq' ▸ hr') (by omega) hgrown ?_
      have hless := batches_sub (n := source.length - q) (by omega) hbatch
      rw [Nat.sub_sub] at hless
      omega

theorem replicates (h : Progress source batch id s k) : ∃ q, Replicates source batch id s q := by
  cases h with
  | probing hr => exact ⟨_, hr⟩
  | synced hr => exact ⟨_, hr⟩
  | done hr => exact ⟨_, hr⟩

/-- One round does one round of the work. -/
theorem exchange_step (h : Progress source batch id s k) (hidx : IndexedFrom 0 source)
    (hlen : source.length < u64Max) (hbatch : 0 < batch) (hfollower : s.2.log.length < u64Max) :
    Progress source batch id (exchange s) (k - 1) := by
  by_cases hpre : source <+: s.2.log
  · obtain ⟨q, hr⟩ := h.replicates
    obtain ⟨hsame, q', hr'⟩ := hr.exchange_of_prefix hidx hlen hfollower hpre
    exact .done hr' (hsame.symm ▸ hpre)
  obtain ⟨k, rfl⟩ : ∃ k', k = k' + 1 := by
    cases k with
    | zero => exact absurd (h.prefix_of_zero hbatch) hpre
    | succ k => exact ⟨k, rfl⟩
  rw [Nat.add_sub_cancel]
  cases h with
  | done _ hdone => exact absurd hdone hpre
  | synced hr hq hlog hk => exact exchange_synced hr hidx hlen hbatch hq hlog hk
  | @probing q _ hr hq hmatch hcut hk =>
    by_cases hin : source.take q <+: s.2.log
    · -- the walk down ends here, with nothing behind position `q`
      have hlt : q < source.length := by
        by_contra hge
        rw [List.take_of_length_le (not_lt.mp hge)] at hin
        exact hpre hin
      have hlog : s.2.log = source.take q := by
        refine (hin.eq_of_length ?_).symm
        have hge := hin.length_le
        rw [List.length_take_of_le hq] at hge ⊢
        exact le_antisymm hge (hcut hlt)
      refine exchange_synced hr hidx hlen hbatch hlt hlog ?_
      have := batches_mono (Nat.sub_le source.length q) batch
      omega
    · rcases hr.exchange_cases hidx hlen hq hmatch hfollower with
        ⟨hpos, -, hr', ⟨hsame, hshort⟩ | htrunc⟩ | ⟨hin', -⟩
      · refine .probing hr' (by omega) (hsame ▸ hmatch) (fun _ => ?_) (by omega)
        rw [hsame]
        omega
      · refine .probing hr' (by omega) (htrunc ▸ hmatch.take_right _) (fun _ => ?_) (by omega)
        rw [htrunc, List.length_take]
        omega
      · exact absurd hin' hin

end Progress

/-- The follower's log stays a vector of admissible length. -/
theorem length_exchange {source : List (ReplicatedEntry Value)} {batch k : Nat} {id : NodeId}
    {s : ClusterNode Value × ClusterNode Value} (h : Progress source batch id s k)
    (hidx : IndexedFrom 0 source) (hlen : source.length < u64Max)
    (hfollower : s.2.log.length < u64Max) : (exchange s).2.log.length < u64Max := by
  have hcases : ∀ {q}, Replicates source batch id s q → q ≤ source.length →
      LogMatching source s.2.log → (exchange s).2.log.length < u64Max := by
    intro q hr hq hmatch
    rcases hr.exchange_cases hidx hlen hq hmatch hfollower with
      ⟨-, -, -, ⟨hlog, -⟩ | hlog⟩ | ⟨-, -, ⟨-, hlog⟩ | ⟨-, hlog⟩⟩ <;> rw [hlog]
    · exact hfollower
    · exact (List.length_take_le ..).trans_lt (by omega)
    · exact hfollower
    · exact (List.length_take_le' ..).trans_lt hlen
  cases h with
  | probing hr hq hmatch => exact hcases hr hq hmatch
  | synced hr hq hlog =>
    exact hcases hr hq.le (hlog ▸ (LogMatching.of_isPrefix List.prefix_rfl).take_right _)
  | done hr hpre => rwa [(hr.exchange_of_prefix hidx hlen hfollower hpre).1]

/-- What holds after `r` rounds. -/
theorem progress_iterate {source : List (ReplicatedEntry Value)} {batch k : Nat} {id : NodeId}
    {s : ClusterNode Value × ClusterNode Value} (h : Progress source batch id s k)
    (hidx : IndexedFrom 0 source) (hlen : source.length < u64Max) (hbatch : 0 < batch)
    (hfollower : s.2.log.length < u64Max) (r : Nat) :
    Progress source batch id (exchange^[r] s) (k - r) := by
  have hboth : Progress source batch id (exchange^[r] s) (k - r) ∧
      (exchange^[r] s).2.log.length < u64Max := by
    induction r with
    | zero => exact ⟨h, hfollower⟩
    | succ r ih =>
      rw [Function.iterate_succ_apply']
      exact ⟨ih.1.exchange_step hidx hlen hbatch ih.2, length_exchange ih.1 hidx hlen ih.2⟩
  exact hboth.1

/-- A leader that has just been elected starts at the end of its log. -/
theorem progress_becomeLeader {leader follower : ClusterNode Value} {L F : RaftLog Value}
    (hleader : leader.log = L.entries) (hlog : follower.log = F.entries)
    (hmatch : LogMatching L.entries F.entries)
    (hterm : follower.state.term ≤ leader.state.term)
    (hpeer : (leader.peerStatus.get follower.config.nodeId).isSome) :
    Progress L.entries leader.config.replicationBatchSize follower.config.nodeId
      (leader.becomeLeader, follower)
      (L.entries.length + batches L.entries.length leader.config.replicationBatchSize) := by
  refine .probing (q := L.entries.length) ⟨rfl, hleader, rfl, rfl, hterm, ?_⟩ le_rfl
    (hlog ▸ hmatch) (fun h => absurd h (lt_irrefl _)) le_rfl
  obtain ⟨status, hget⟩ := Option.isSome_iff_exists.mp hpeer
  refine ⟨{ status with nextIndex := leader.log.length + 1, matchIndex := 0 }, ?_,
    by rw [hleader]⟩
  have h := leader.peerStatus.get_map
    (fun _ s => { s with nextIndex := leader.log.length + 1, matchIndex := 0 })
    follower.config.nodeId
  rw [hget] at h
  exact h

/-- **Replication converges.**  A newly elected leader that appends nothing brings a
follower with a matching log up to date in at most `|L| + ⌈|L| / batch⌉` rounds, and in
every round before that it has a request to send. -/
theorem replication_converges (leader follower : ClusterNode Value) (L F : RaftLog Value)
    (hleader : leader.log = L.entries) (hfollower : follower.log = F.entries)
    (hmatch : LogMatching L.entries F.entries)
    (hterm : follower.state.term ≤ leader.state.term)
    (hbatch : 1 ≤ leader.config.replicationBatchSize)
    (hpeer : (leader.peerStatus.get follower.config.nodeId).isSome) (r : Nat) :
    let s := exchange^[r] (leader.becomeLeader, follower)
    (L.entries.length + batches L.entries.length leader.config.replicationBatchSize ≤ r →
        L.entries <+: s.2.log) ∧
      (¬ L.entries <+: s.2.log → (s.1.prepareAppend follower.config.nodeId).isSome) := by
  have hstart := progress_becomeLeader hleader hfollower hmatch hterm hpeer
  have hr := progress_iterate hstart L.contiguous L.bounded hbatch
    (hfollower ▸ F.bounded) r
  refine ⟨fun hle => ?_, hr.sendable L.contiguous L.bounded⟩
  rw [Nat.sub_eq_zero_of_le hle] at hr
  exact hr.prefix_of_zero hbatch

/-- A node that appended one entry in each of two terms and wins the next election. -/
def twoTermLeader (batch : Nat) : ClusterNode String :=
  let n := (ClusterNode.new ⟨⟨"n1"⟩, [⟨"n2"⟩], batch⟩).startElection.1.becomeLeader
  let n := (n.appendEntry "t1" .alertCreated "a").1.startElection.1.becomeLeader
  (n.appendEntry "t2" .alertCreated "b").1.startElection.1

theorem replication_converges_two :
    let follower : ClusterNode String := ClusterNode.new ⟨⟨"n2"⟩, [⟨"n1"⟩], 1⟩
    (twoTermLeader 1).log <+: (exchange^[4] ((twoTermLeader 1).becomeLeader, follower)).2.log :=
  (replication_converges (twoTermLeader 1) _
    ⟨_, by decide, by decide⟩ ⟨[], IndexedFrom.nil, by decide⟩ rfl rfl
    (fun _ _ _ _ h => absurd h (by simp)) (by decide) le_rfl (by decide) 4).1 (by decide)

/-- Two entries sent one by one to an empty follower need four rounds, one more than
`|L| + |F| + 1`; and a compacted log is never brought over. -/
theorem replication_needs_more_rounds :
    let leader := twoTermLeader 1
    let compacted := (leader.compactLog 1).1
    let empty : ClusterNode String := ClusterNode.new ⟨⟨"n2"⟩, [⟨"n1"⟩], 1⟩
    let full := (exchange^[4] (leader.becomeLeader, empty)).2
    (LogMatching leader.log empty.log ∧
        ¬ leader.log <+: (exchange^[2 + 0 + 1] (leader.becomeLeader, empty)).2.log) ∧
      LogMatching compacted.log full.log ∧
        ¬ compacted.log <+: (exchange^[1 + 2 + 1] (compacted.becomeLeader, full)).2.log := by
  refine ⟨⟨fun _ _ _ _ h => absurd h (by simp [ClusterNode.new]), by decide⟩, ?_, by decide⟩
  intro p e e' he he' hterm
  cases p with
  | zero =>
    cases he
    cases he'
    exact absurd hterm (by decide)
  | succ p => cases he

end Wardex.Cluster
