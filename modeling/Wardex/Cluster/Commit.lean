import Mathlib.Data.List.NodupEquivFin
import Mathlib.Order.WellFounded
import Wardex.Cluster.Votes
import Wardex.Lib.LogHistory

/-! The commit index of a single node over arbitrary sequences of calls: when it never
falls, and when the log keeps every committed entry above the compaction point. -/

namespace Wardex.Cluster

open Wardex.Lib

variable {Value : Type}

/-! ## Index density

Appends and truncations work with positions, retention with stored indices.  What all of
them keep is that every index up to a position is stored before that position, unless it
was compacted away. -/

structure Dense (base : Nat) (log : List (ReplicatedEntry Value)) : Prop where
  reach : ∀ p i, p ≤ log.length → base < i → i ≤ p → ∃ e ∈ log.take p, e.index = i
  index_ge : ∀ (p : Nat) (e : ReplicatedEntry Value), log[p]? = some e → p + 1 ≤ e.index

namespace Dense

variable {base : Nat} {log : List (ReplicatedEntry Value)}

theorem nil : Dense base ([] : List (ReplicatedEntry Value)) where
  reach := by
    intro p i hp hb hi
    simp only [List.length_nil, Nat.le_zero] at hp
    omega
  index_ge := by simp

theorem take (h : Dense base log) (m : Nat) : Dense base (log.take m) where
  reach := by
    intro p i hp hb hi
    rw [List.length_take] at hp
    rw [List.take_take, min_eq_left (by omega)]
    exact h.reach p i (by omega) hb hi
  index_ge := by
    intro p e he
    exact h.index_ge p e (getElem?_of_take he)

theorem push (h : Dense base log) {e : ReplicatedEntry Value} (he : e.index = log.length + 1) :
    Dense base (log ++ [e]) where
  reach := by
    intro p i hp hb hi
    by_cases hlen : p ≤ log.length
    · rw [List.take_append_of_le_length hlen]
      exact h.reach p i hlen hb hi
    · have hpe : p = log.length + 1 := by
        rw [List.length_append, List.length_singleton] at hp
        omega
      rw [List.take_of_length_le (by simp [hpe])]
      by_cases hil : i ≤ log.length
      · obtain ⟨e', hmem, hidx⟩ := h.reach log.length i le_rfl hb hil
        rw [List.take_length] at hmem
        exact ⟨e', List.mem_append_left _ hmem, hidx⟩
      · exact ⟨e, by simp, by omega⟩
  index_ge := by
    intro p e' he'
    rcases lt_trichotomy p log.length with hlt | heq | hgt
    · rw [List.getElem?_append_left hlt] at he'
      exact h.index_ge p e' he'
    · subst heq
      simp only [List.getElem?_concat_length, Option.some.injEq] at he'
      rw [← he']
      exact he.ge
    · rw [List.getElem?_eq_none (by simp; omega)] at he'
      cases he'

theorem retainAbove (h : Dense base log) (k : Nat) :
    Dense (max base k) (ClusterNode.retainAbove log k) where
  reach := by
    intro p i hp hb hi
    have hlen : (ClusterNode.retainAbove log k).length ≤ log.length :=
      List.length_filter_le _ _
    obtain ⟨e, he, hidx⟩ := h.reach p i (hp.trans hlen) (by omega) hi
    -- what survives of the first `p` entries is a prefix of what survives of the log
    have hpre : (log.take p).filter (fun e => e.index > k) <+:
        (ClusterNode.retainAbove log k).take p := by
      rw [List.prefix_take_iff]
      refine ⟨(List.take_prefix p log).filter _, ?_⟩
      exact (List.length_filter_le _ _).trans (List.length_take_le _ _)
    refine ⟨e, hpre.subset (List.mem_filter.mpr ⟨he, ?_⟩), hidx⟩
    simp only [decide_eq_true_eq]
    omega
  index_ge := by
    intro p e he
    have hsub : (ClusterNode.retainAbove log k).Sublist log := List.filter_sublist
    obtain ⟨f, hf⟩ := List.sublist_iff_exists_orderEmbedding_getElem?_eq.mp hsub
    rw [hf p] at he
    have hidx := h.index_ge (f p) e he
    have hle : p ≤ f p := f.strictMono.le_apply
    omega

theorem appendEntries (h : Dense base log) (entries : List (ReplicatedEntry Value)) :
    Dense base (ClusterNode.appendEntries log entries).1 := by
  induction entries generalizing log with
  | nil => exact h
  | cons entry rest ih =>
    rw [ClusterNode.appendEntries]
    split_ifs with h0
    · exact h
    · dsimp only
      split
      · next old hold =>
        have hlt : entry.index - 1 < log.length := (List.getElem?_eq_some_iff.mp hold).1
        split_ifs
        · refine ih ((h.take _).push ?_)
          rw [List.length_take_of_le hlt.le]
          omega
        · exact ih h
      · split_ifs with hend
        · exact ih (h.push (by omega))
        · exact h

end Dense

/-! ## Conflicts above the commit index -/

/-- Where the entry at position `p` disagrees with `term`, `Q` holds of the position. -/
def OnConflict (log : List (ReplicatedEntry Value)) (p term : Nat) (Q : Prop) : Prop :=
  ∀ old, log[p]? = some old → old.term ≠ term → Q

/-- Cutting `log` at position `p` drops no entry with an index up to `commit`. -/
def CutsAbove (log : List (ReplicatedEntry Value)) (commit p : Nat) : Prop :=
  ∀ e ∈ log.drop p, commit < e.index

/-- The loop over the entries keeps the part of `log₀` below some position in `Q`, when
every position it may cut at is in `Q`. -/
theorem exists_take_prefix_appendEntries {log₀ : List (ReplicatedEntry Value)}
    {Q : Nat → Prop} (entries : List (ReplicatedEntry Value))
    (hconf : ∀ e ∈ entries, e.index ≠ 0 →
      OnConflict log₀ (e.index - 1) e.term (Q (e.index - 1)))
    {log : List (ReplicatedEntry Value)} (hlog : ∃ m, Q m ∧ log₀.take m <+: log) :
    ∃ m, Q m ∧ log₀.take m <+: (ClusterNode.appendEntries log entries).1 := by
  induction entries generalizing log with
  | nil => exact hlog
  | cons entry rest ih =>
    have ih' := fun l => @ih (fun e he => hconf e (List.mem_cons_of_mem _ he)) l
    obtain ⟨m, hm, hpre⟩ := hlog
    rw [ClusterNode.appendEntries]
    split_ifs with h0
    · exact ⟨m, hm, hpre⟩
    · dsimp only
      split
      · next old hold =>
        split_ifs with hterm
        · refine ih' _ ?_
          by_cases hin : entry.index - 1 < (log₀.take m).length
          · -- the cut is inside the kept part, so `hconf` gives the new bound
            have hsame : log₀[entry.index - 1]? = some old :=
              getElem?_of_take ((prefix_getElem? hpre hin).symm.trans hold)
            refine ⟨entry.index - 1,
              hconf entry (List.mem_cons_self ..) h0 old hsame hterm, ?_⟩
            refine List.IsPrefix.trans ?_ (List.prefix_append _ _)
            have hcut := hpre.take (entry.index - 1)
            rw [List.length_take] at hin
            rwa [List.take_take, min_eq_left (by omega)] at hcut
          · refine ⟨m, hm, List.IsPrefix.trans ?_ (List.prefix_append _ _)⟩
            exact List.prefix_take_iff.mpr ⟨hpre, not_lt.mp hin⟩
        · exact ih' _ ⟨m, hm, hpre⟩
      · split_ifs
        · exact ih' _ ⟨m, hm, hpre.trans (List.prefix_append _ _)⟩
        · exact ⟨m, hm, hpre⟩

/-- A loop that goes through ends with a log that reaches the last entry's index. -/
theorem index_le_length_appendEntries {log : List (ReplicatedEntry Value)}
    (entries : List (ReplicatedEntry Value))
    (hok : (ClusterNode.appendEntries log entries).2 = true) {last : ReplicatedEntry Value}
    (hlast : entries.getLast? = some last) :
    last.index ≤ (ClusterNode.appendEntries log entries).1.length := by
  induction entries generalizing log with
  | nil => cases hlast
  | cons entry rest ih =>
    rw [ClusterNode.appendEntries] at hok ⊢
    split_ifs at hok ⊢ with h0
    cases rest with
    | nil =>
      obtain rfl : entry = last := Option.some.inj hlast
      dsimp only at hok ⊢
      split at hok
      · next old hold =>
        have hlt := lt_length_of_getElem?_some hold
        split_ifs with hterm
        · simp only [ClusterNode.appendEntries, List.length_append, List.length_take,
            List.length_singleton]
          omega
        · simp only [ClusterNode.appendEntries]
          omega
      · split_ifs at hok ⊢ with hend
        simp only [ClusterNode.appendEntries, List.length_append, List.length_singleton]
        omega
    | cons entry' rest' =>
      have hlast' : (entry' :: rest').getLast? = some last := by
        rwa [List.getLast?_cons_cons] at hlast
      dsimp only at hok ⊢
      split at hok
      · split_ifs at hok ⊢ with hterm
        · exact ih hok hlast'
        · exact ih hok hlast'
      · split_ifs at hok ⊢ with hend
        exact ih hok hlast'

/-! ## Commit updates -/

namespace ClusterNode

/-- Position `c` lies above the commit index, holds an entry of the present term, and is
held by a majority. -/
structure CommitsAt (n : ClusterNode Value) (c : Nat) : Prop where
  above : n.state.commitIndex < c
  le_length : c ≤ n.log.length
  entry : ∃ e, n.log[c - 1]? = some e ∧ e.term = n.state.term
  majority : (n.peerStatus.length + 1) / 2 + 1 ≤ n.replicatedAt c

theorem commitStep_spec (n : ClusterNode Value) {commit i : Nat}
    (h : commit = n.state.commitIndex ∨ n.CommitsAt commit)
    (hi : n.state.commitIndex < i ∧ i ≤ n.log.length) :
    n.commitStep commit i = n.state.commitIndex ∨ n.CommitsAt (n.commitStep commit i) := by
  unfold commitStep
  dsimp only
  split
  · next entry hentry =>
    split_ifs with hterm hmaj
    · exact h
    · exact Or.inr ⟨hi.1, hi.2, ⟨entry, hentry, not_not.mp hterm⟩, hmaj⟩
    · exact h
  · exact h

/-- The commit loop leaves the commit index alone or moves it where it may go. -/
theorem tryAdvanceCommit_spec (n : ClusterNode Value) :
    n.tryAdvanceCommit.state.commitIndex = n.state.commitIndex ∨
      n.CommitsAt n.tryAdvanceCommit.state.commitIndex := by
  change List.foldl _ _ _ = _ ∨ n.CommitsAt (List.foldl _ _ _)
  refine List.foldlRecOn (motive := fun c => c = n.state.commitIndex ∨ n.CommitsAt c) _ _
    (Or.inl rfl) fun commit hcommit i hi => n.commitStep_spec hcommit ?_
  rw [List.mem_range'_1] at hi
  omega

theorem commitIndex_le_handleAppendResponse (n : ClusterNode Value) (id : NodeId)
    (resp : AppendResponse) :
    n.state.commitIndex ≤ (n.handleAppendResponse id resp).state.commitIndex := by
  unfold handleAppendResponse
  split
  · exact le_rfl
  · split
    · exact le_rfl
    · rcases (n.recordPeer id resp).tryAdvanceCommit_spec with h | h
      · exact h.ge
      · exact h.above.le

theorem handleAppendResponse_log (n : ClusterNode Value) (id : NodeId)
    (resp : AppendResponse) : (n.handleAppendResponse id resp).log = n.log := by
  unfold handleAppendResponse
  split
  · rfl
  · split <;> rfl

theorem commitIndex_handleAppendResponse (n : ClusterNode Value) (id : NodeId)
    (resp : AppendResponse) :
    (n.handleAppendResponse id resp).state.commitIndex = n.state.commitIndex ∨
      (n.handleAppendResponse id resp).state.commitIndex ≤ n.log.length := by
  unfold handleAppendResponse
  split
  · exact Or.inl rfl
  · split
    · exact Or.inl rfl
    · rcases (n.recordPeer id resp).tryAdvanceCommit_spec with h | h
      · exact Or.inl h
      · exact Or.inr h.le_length

theorem handleInstallSnapshot_log {n : ClusterNode Value} {req : InstallSnapshotRequest}
    (h : n.state.term ≤ req.term) :
    (n.handleInstallSnapshot req).1.log =
        retainAbove n.log req.snapshot.lastIncludedIndex ∧
      (n.handleInstallSnapshot req).1.state.commitIndex =
        max n.state.commitIndex req.snapshot.lastIncludedIndex := by
  unfold handleInstallSnapshot
  rw [if_neg (not_lt.mpr h)]
  refine ⟨rfl, ?_⟩
  dsimp only [touch_state]
  split_ifs <;> rfl

theorem handleVoteRequest_frame (n : ClusterNode Value) (req : VoteRequest) :
    (n.handleVoteRequest req).1.log = n.log ∧
      (n.handleVoteRequest req).1.state.commitIndex = n.state.commitIndex := by
  unfold handleVoteRequest
  split
  · exact ⟨rfl, rfl⟩
  · refine ⟨rfl, ?_⟩
    dsimp only [touch_state]
    split_ifs <;> rfl

end ClusterNode

/-! ## Whole runs, with the compaction point -/

/-- A node and the highest index it has compacted or taken from a snapshot. -/
structure CommitHistory (Value : Type) where
  node : ClusterNode Value
  base : Nat

namespace CommitHistory

def new (config : ClusterConfig) : CommitHistory Value :=
  { node := ClusterNode.new config, base := 0 }

def step (h : CommitHistory Value) (op : NodeOp Value) : CommitHistory Value where
  node := h.node.after op
  base := match op with
    | .handleInstallSnapshot req =>
      if req.term < h.node.state.term then h.base
      else max h.base req.snapshot.lastIncludedIndex
    | .compactLog upToIndex => max h.base upToIndex
    | _ => h.base

/-- Every committed index above the compaction point is present in the log. -/
def Retains (h : CommitHistory Value) : Prop :=
  ∀ i, h.base < i → i ≤ h.node.state.commitIndex → ∃ e ∈ h.node.log, e.index = i

end CommitHistory

/-- The conflicts of the request cut no committed entry, and where it passes the
consistency check with a newer commit index, the log it leaves reaches the commit index:
through the last entry sent, or because nothing below the commit index is cut. -/
def AppendKeepsCommitted (n : ClusterNode Value) (req : AppendRequest Value) : Prop :=
  n.state.term ≤ req.term →
    (0 < req.prevLogIndex →
      OnConflict n.log (req.prevLogIndex - 1) req.prevLogTerm
        (CutsAbove n.log n.state.commitIndex (req.prevLogIndex - 1))) ∧
    (ClusterNode.consistencyCheck n.log req.prevLogIndex req.prevLogTerm = none →
      (∀ e ∈ req.entries, e.index ≠ 0 →
        OnConflict n.log (e.index - 1) e.term
          (CutsAbove n.log n.state.commitIndex (e.index - 1))) ∧
      (n.state.commitIndex < req.leaderCommit →
        (∃ e, req.entries.getLast? = some e ∧ n.state.commitIndex ≤ e.index) ∨
        n.state.commitIndex ≤ n.log.length ∧ ∀ e ∈ req.entries, e.index ≠ 0 →
          OnConflict n.log (e.index - 1) e.term (n.state.commitIndex ≤ e.index - 1)))

def KeepsCommitted (n : ClusterNode Value) : NodeOp Value → Prop
  | .handleAppend req => AppendKeepsCommitted n req
  | .compactLog upToIndex => upToIndex ≤ n.state.commitIndex
  | _ => True

namespace CommitHistory

/-- Every entry with a committed index outlives the request. -/
theorem mem_handleAppend {n : ClusterNode Value} {req : AppendRequest Value}
    (h : AppendKeepsCommitted n req) {e : ReplicatedEntry Value} (he : e ∈ n.log)
    (hidx : e.index ≤ n.state.commitIndex) : e ∈ (n.handleAppend req).1.log := by
  -- it is enough that what lies behind some cut position is not committed
  have hcut : ∀ {m : Nat} {log : List (ReplicatedEntry Value)},
      CutsAbove n.log n.state.commitIndex m → n.log.take m <+: log → e ∈ log := by
    intro m log hm hpre
    rw [← List.take_append_drop m n.log, List.mem_append] at he
    rcases he with he | he
    · exact hpre.subset he
    · exact absurd hidx (not_le.mpr (hm e he))
  rcases n.handleAppend_cases req with
    ⟨-, hn⟩ | ⟨hle, log, hc, hn⟩ | ⟨hle, hc, log, ha, hn⟩ | ⟨hle, hc, log, ha, hn⟩ <;> rw [hn]
  · exact he
  · obtain ⟨hp, ⟨rfl, -⟩ | ⟨old, hold, hne, rfl⟩⟩ := ClusterNode.consistencyCheck_some hc
    · exact he
    · exact hcut ((h hle).1 hp old hold hne) List.prefix_rfl
  all_goals
    have hnothing : CutsAbove n.log n.state.commitIndex n.log.length := by
      intro e he
      rw [List.drop_length] at he
      cases he
    obtain ⟨m, hm, hpre⟩ := exists_take_prefix_appendEntries req.entries ((h hle).2 hc).1
      ⟨n.log.length, hnothing, List.take_prefix _ _⟩
    rw [ha] at hpre
    exact hcut hm hpre

/-- A commit index that the request raises stays below the length of the new log. -/
theorem commitIndex_le_length_handleAppend {n : ClusterNode Value} {req : AppendRequest Value}
    {log : List (ReplicatedEntry Value)} (h : AppendKeepsCommitted n req)
    (hle : n.state.term ≤ req.term)
    (hc : ClusterNode.consistencyCheck n.log req.prevLogIndex req.prevLogTerm = none)
    (ha : ClusterNode.appendEntries n.log req.entries = (log, true))
    (hnew : n.state.commitIndex < req.leaderCommit) : n.state.commitIndex ≤ log.length := by
  rcases ((h hle).2 hc).2 hnew with ⟨last, hlast, hidx⟩ | ⟨hlen, hconf⟩
  · have hreach := index_le_length_appendEntries req.entries (congrArg Prod.snd ha) hlast
    rw [ha] at hreach
    exact hidx.trans hreach
  · obtain ⟨m, hm, hpre⟩ := exists_take_prefix_appendEntries
      (Q := fun m => n.state.commitIndex ≤ m) req.entries hconf
      ⟨n.state.commitIndex, le_rfl, List.take_prefix _ n.log⟩
    rw [ha] at hpre
    have hge := hpre.length_le
    rw [List.length_take] at hge
    exact (le_min hm hlen).trans hge

theorem dense_handleAppend {n : ClusterNode Value} {base : Nat} (h : Dense base n.log)
    (req : AppendRequest Value) : Dense base (n.handleAppend req).1.log := by
  rcases n.handleAppend_cases req with
    ⟨-, he⟩ | ⟨-, log, hc, he⟩ | ⟨-, -, log, ha, he⟩ | ⟨-, -, log, ha, he⟩ <;> rw [he]
  · exact h
  · obtain ⟨-, ⟨rfl, -⟩ | ⟨_, -, -, rfl⟩⟩ := ClusterNode.consistencyCheck_some hc
    · exact h
    · exact h.take _
  all_goals
    have hd := h.appendEntries req.entries
    rwa [ha] at hd

def Inv (h : CommitHistory Value) : Prop := Dense h.base h.node.log ∧ h.Retains

theorem inv_new (config : ClusterConfig) : Inv (new config : CommitHistory Value) :=
  ⟨Dense.nil, fun i hb hi => absurd (hb.trans_le hi) (by simp [new, ClusterNode.new])⟩

theorem Inv.step_handleAppend {h : CommitHistory Value} (hi : h.Inv)
    (req : AppendRequest Value) (hop : AppendKeepsCommitted h.node req) :
    (h.step (.handleAppend req)).Inv ∧
      h.node.state.commitIndex ≤ (h.step (.handleAppend req)).node.state.commitIndex := by
  obtain ⟨hd, hr⟩ := hi
  have hd' := dense_handleAppend hd req
  -- the entries committed before the call are still there
  have hold : ∀ i, h.base < i → i ≤ h.node.state.commitIndex →
      ∃ e ∈ (h.node.handleAppend req).1.log, e.index = i := by
    intro i hb hc
    obtain ⟨e, he, hidx⟩ := hr i hb hc
    exact ⟨e, mem_handleAppend hop he (hidx.trans_le hc), hidx⟩
  -- and a commit index that moves stays within the new log
  have hcommit : h.node.state.commitIndex ≤ (h.node.handleAppend req).1.state.commitIndex ∧
      ((h.node.handleAppend req).1.state.commitIndex = h.node.state.commitIndex ∨
        (h.node.handleAppend req).1.state.commitIndex ≤
          (h.node.handleAppend req).1.log.length) := by
    rcases h.node.handleAppend_cases req with
      ⟨-, he⟩ | ⟨-, log, -, he⟩ | ⟨-, -, log, -, he⟩ | ⟨hle, hc, log, ha, he⟩ <;> rw [he]
    · exact ⟨le_rfl, Or.inl rfl⟩
    · exact ⟨le_rfl, Or.inl rfl⟩
    · exact ⟨le_rfl, Or.inl rfl⟩
    · dsimp only
      split_ifs with hnew
      · have hroom := commitIndex_le_length_handleAppend hop hle hc ha hnew
        exact ⟨le_min hnew.le hroom, Or.inr (min_le_right _ _)⟩
      · exact ⟨le_rfl, Or.inl rfl⟩
  refine ⟨⟨hd', ?_⟩, hcommit.1⟩
  intro i hb hc
  rcases hcommit.2 with hsame | hroom
  · exact hold i hb (hc.trans_eq hsame)
  · obtain ⟨e, he, hidx⟩ := hd'.reach _ i le_rfl hb (hc.trans hroom)
    rw [List.take_length] at he
    exact ⟨e, he, hidx⟩

theorem Inv.step_handleInstallSnapshot {h : CommitHistory Value} (hi : h.Inv)
    (req : InstallSnapshotRequest) :
    (h.step (.handleInstallSnapshot req)).Inv ∧ h.node.state.commitIndex ≤
      (h.step (.handleInstallSnapshot req)).node.state.commitIndex := by
  obtain ⟨hd, hr⟩ := hi
  by_cases hlt : req.term < h.node.state.term
  · have hsame : h.step (.handleInstallSnapshot req) = h := by
      simp [CommitHistory.step, ClusterNode.after, ClusterNode.apply,
        ClusterNode.handleInstallSnapshot, hlt]
    rw [hsame]
    exact ⟨⟨hd, hr⟩, le_rfl⟩
  · obtain ⟨hlog, hcommit⟩ := h.node.handleInstallSnapshot_log (not_lt.mp hlt)
    have hbase : (h.step (.handleInstallSnapshot req)).base =
        max h.base req.snapshot.lastIncludedIndex := if_neg hlt
    refine ⟨⟨?_, ?_⟩, ?_⟩
    · rw [hbase]
      exact (congrArg (Dense _) hlog).mpr (hd.retainAbove _)
    · intro i hb hc
      rw [hbase] at hb
      have hc' : i ≤ max h.node.state.commitIndex req.snapshot.lastIncludedIndex :=
        hc.trans_eq hcommit
      obtain ⟨e, he, hidx⟩ := hr i (by omega) (by omega)
      refine ⟨e, ?_, hidx⟩
      have hkeep : e ∈ ClusterNode.retainAbove h.node.log req.snapshot.lastIncludedIndex := by
        refine List.mem_filter.mpr ⟨he, ?_⟩
        simp only [decide_eq_true_eq]
        omega
      exact hlog.symm ▸ hkeep
    · exact (le_max_left _ _).trans_eq hcommit.symm

/-- A step that leaves log, commit index and compaction point alone. -/
theorem Inv.frame {h h' : CommitHistory Value} (hi : h.Inv) (hb : h'.base = h.base)
    (hl : h'.node.log = h.node.log)
    (hc : h'.node.state.commitIndex = h.node.state.commitIndex) :
    h'.Inv ∧ h.node.state.commitIndex ≤ h'.node.state.commitIndex := by
  refine ⟨⟨by rw [hb, hl]; exact hi.1, ?_⟩, hc.ge⟩
  intro i hbi hci
  rw [hb] at hbi
  rw [hc] at hci
  rw [hl]
  exact hi.2 i hbi hci

theorem Inv.step_appendEntry {h : CommitHistory Value} (hi : h.Inv) (now : String)
    (entryType : EntryType) (data : Value) :
    (h.step (.appendEntry now entryType data)).Inv ∧ h.node.state.commitIndex ≤
      (h.step (.appendEntry now entryType data)).node.state.commitIndex := by
  obtain ⟨hd, hr⟩ := hi
  by_cases hrole : h.node.state.role = .leader
  · have hlog : (h.step (.appendEntry now entryType data)).node.log = h.node.log ++
        [{ index := h.node.log.length + 1, term := h.node.state.term, timestamp := now,
           entryType := entryType, data := data }] := by
      simp [CommitHistory.step, ClusterNode.after, ClusterNode.apply,
        ClusterNode.appendEntry, hrole]
    have hc : (h.step (.appendEntry now entryType data)).node.state = h.node.state :=
      h.node.appendEntry_state now entryType data
    refine ⟨⟨?_, ?_⟩, hc ▸ le_rfl⟩
    · rw [hlog]
      exact hd.push rfl
    · intro i hbi hci
      rw [hc] at hci
      obtain ⟨e, he, hidx⟩ := hr i hbi hci
      rw [hlog]
      exact ⟨e, List.mem_append_left _ he, hidx⟩
  · have hsame : h.node.after (.appendEntry now entryType data) = h.node := by
      simp [ClusterNode.after, ClusterNode.apply, ClusterNode.appendEntry, hrole]
    exact Inv.frame ⟨hd, hr⟩ rfl (congrArg ClusterNode.log hsame)
      (congrArg (fun n => n.state.commitIndex) hsame)

theorem Inv.step_handleAppendResponse {h : CommitHistory Value} (hi : h.Inv) (peerId : NodeId)
    (resp : AppendResponse) :
    (h.step (.handleAppendResponse peerId resp)).Inv ∧ h.node.state.commitIndex ≤
      (h.step (.handleAppendResponse peerId resp)).node.state.commitIndex := by
  obtain ⟨hd, hr⟩ := hi
  have hlog : (h.step (.handleAppendResponse peerId resp)).node.log = h.node.log :=
    h.node.handleAppendResponse_log peerId resp
  refine ⟨⟨hlog ▸ hd, ?_⟩, h.node.commitIndex_le_handleAppendResponse peerId resp⟩
  intro i hbi hci
  rw [hlog]
  by_cases hold : i ≤ h.node.state.commitIndex
  · exact hr i hbi hold
  · have hlen := h.node.commitIndex_handleAppendResponse peerId resp
    have hci' : i ≤ (h.node.handleAppendResponse peerId resp).state.commitIndex := hci
    obtain ⟨e, he, hidx⟩ := hd.reach h.node.log.length i le_rfl hbi (by omega)
    rw [List.take_length] at he
    exact ⟨e, he, hidx⟩

theorem Inv.step_compactLog {h : CommitHistory Value} (hi : h.Inv) (upToIndex : Nat) :
    (h.step (.compactLog upToIndex)).Inv ∧ h.node.state.commitIndex ≤
      (h.step (.compactLog upToIndex)).node.state.commitIndex := by
  obtain ⟨hd, hr⟩ := hi
  refine ⟨⟨hd.retainAbove upToIndex, ?_⟩, le_rfl⟩
  intro i hbi hci
  have hb : max h.base upToIndex < i := hbi
  obtain ⟨e, he, hidx⟩ := hr i (by omega) hci
  refine ⟨e, List.mem_filter.mpr ⟨he, ?_⟩, hidx⟩
  simp only [decide_eq_true_eq]
  omega

/-- The two halves of one step: the commit index does not fall and the invariant stays. -/
theorem Inv.step {h : CommitHistory Value} (hi : h.Inv) (op : NodeOp Value)
    (hop : KeepsCommitted h.node op) :
    (h.step op).Inv ∧ h.node.state.commitIndex ≤ (h.step op).node.state.commitIndex := by
  cases op with
  | startElection => exact hi.frame rfl rfl rfl
  | becomeLeader => exact hi.frame rfl rfl rfl
  | prepareAppend peerId => exact hi.frame rfl rfl rfl
  | markPeerUnreachable peerId => exact hi.frame rfl rfl rfl
  | handleVoteRequest req =>
    obtain ⟨hl, hc⟩ := h.node.handleVoteRequest_frame req
    exact hi.frame rfl hl hc
  | appendEntry now entryType data => exact hi.step_appendEntry now entryType data
  | handleAppend req => exact hi.step_handleAppend req hop
  | handleAppendResponse peerId resp => exact hi.step_handleAppendResponse peerId resp
  | handleInstallSnapshot req => exact hi.step_handleInstallSnapshot req
  | compactLog upToIndex => exact hi.step_compactLog upToIndex

end CommitHistory

/-- **Monotone commit.**  In a run whose calls all keep the committed part, the commit
index never falls and every committed index above the compaction point stays in the log. -/
theorem commitIndex_monotone (config : ClusterConfig) (ops : List (NodeOp Value))
    (hops : Along CommitHistory.step (fun h op => KeepsCommitted h.node op)
      (CommitHistory.new config) ops) :
    Along CommitHistory.step
        (fun h op => h.node.state.commitIndex ≤ (h.step op).node.state.commitIndex)
        (CommitHistory.new config) ops ∧
      Throughout CommitHistory.step CommitHistory.Retains (CommitHistory.new config) ops := by
  constructor
  · exact along_of_invariant (I := CommitHistory.Inv) (fun h op hi hop => (hi.step op hop).1)
      (fun h op hi hop => (hi.step op hop).2) (CommitHistory.inv_new config) hops
  · exact throughout_of_invariant (I := CommitHistory.Inv)
      (fun h op hi hop => (hi.step op hop).1) (fun _ hi => hi.2)
      (CommitHistory.inv_new config) hops

/-- Two entries arrive committed and the first is then compacted. -/
theorem commitIndex_monotone_two_entries :
    let start : CommitHistory String := CommitHistory.new ⟨⟨"n1"⟩, [⟨"n2"⟩], 50⟩
    let ops := [.handleAppend ⟨1, ⟨"n2"⟩, 0, 0,
      [⟨1, 1, "t1", .alertCreated, "a"⟩, ⟨2, 1, "t2", .alertCreated, "b"⟩], 2⟩, .compactLog 1]
    Along CommitHistory.step
        (fun h op => h.node.state.commitIndex ≤ (h.step op).node.state.commitIndex) start ops ∧
      Throughout CommitHistory.step CommitHistory.Retains start ops := by
  refine commitIndex_monotone _ _ ⟨?_, ?_, trivial⟩
  · intro _
    refine ⟨fun h => absurd h (by decide), fun _ => ⟨?_, fun _ => Or.inl ?_⟩⟩
    · intro e _ _ old hold
      cases hold
    · exact ⟨_, rfl, by decide⟩
  · exact (by decide : 1 ≤ 2)

/-- A conflicting request removes committed entries, and after a compaction a heartbeat
with a newer commit index lowers the node's own. -/
theorem commitIndex_monotone_fails :
    let start : CommitHistory String := CommitHistory.new ⟨⟨"n1"⟩, [⟨"n2"⟩], 50⟩
    let entries := [⟨1, 1, "t1", .alertCreated, "a"⟩, ⟨2, 1, "t2", .alertCreated, "b"⟩]
    ¬ Throughout CommitHistory.step CommitHistory.Retains start
        [.handleAppend ⟨1, ⟨"n2"⟩, 0, 0, entries, 2⟩, .handleAppend ⟨2, ⟨"n2"⟩, 1, 2, [], 2⟩] ∧
      ¬ Along CommitHistory.step
        (fun h op => h.node.state.commitIndex ≤ (h.step op).node.state.commitIndex) start
        [.handleAppend ⟨1, ⟨"n2"⟩, 0, 0, entries, 2⟩, .compactLog 2,
          .handleAppend ⟨1, ⟨"n2"⟩, 0, 0, [], 3⟩] := by
  refine ⟨fun h => ?_, fun h => absurd h.2.2.1 (by decide)⟩
  obtain ⟨e, he, -⟩ := h.2.2 1 (by decide) (by decide)
  exact absurd he (by simp [CommitHistory.step, CommitHistory.new, ClusterNode.after,
    ClusterNode.apply, ClusterNode.handleAppend, ClusterNode.new, ClusterNode.consistencyCheck,
    ClusterNode.appendEntries])

end Wardex.Cluster
