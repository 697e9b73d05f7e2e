import Wardex.Cluster.Node
import Wardex.Lib.LogHistory

/-! Logs that were never compacted: their indices, the matching of two logs, and what the
entry loop of `handle_append` makes of a slice of the sender's log. -/

namespace Wardex.Cluster

open Wardex.Lib

variable {Value : Type}

/-- The entries carry the indices `q + 1`, `q + 2`, and so on. -/
def IndexedFrom (q : Nat) (entries : List (ReplicatedEntry Value)) : Prop :=
  ∀ p e, entries[p]? = some e → e.index = q + p + 1

/-- A log as it is without snapshots: indices are positions plus one, and like every vector
it is shorter than the largest machine integer. -/
structure RaftLog (Value : Type) where
  entries : List (ReplicatedEntry Value)
  contiguous : IndexedFrom 0 entries
  bounded : entries.length < u64Max

/-- An entry of the same term at the same position means the same log up to there. -/
def LogMatching (l l' : List (ReplicatedEntry Value)) : Prop :=
  ∀ p e e', l[p]? = some e → l'[p]? = some e' → e.term = e'.term →
    l.take (p + 1) = l'.take (p + 1)

namespace IndexedFrom

variable {q : Nat} {entries : List (ReplicatedEntry Value)}

instance (q : Nat) (entries : List (ReplicatedEntry Value)) :
    Decidable (IndexedFrom q entries) :=
  decidable_of_iff (∀ p : Fin entries.length, (entries.get p).index = q + p + 1)
    ⟨fun h p e he => by
      obtain ⟨hp, rfl⟩ := List.getElem?_eq_some_iff.mp he
      exact h ⟨p, hp⟩,
    fun h p => h p _ (List.getElem?_eq_getElem p.2)⟩

theorem nil : IndexedFrom q ([] : List (ReplicatedEntry Value)) := by
  intro p e he
  simp at he

theorem drop (h : IndexedFrom q entries) (m : Nat) : IndexedFrom (q + m) (entries.drop m) := by
  intro p e he
  rw [List.getElem?_drop] at he
  rw [h (m + p) e he]
  omega

theorem push (h : IndexedFrom q entries) {e : ReplicatedEntry Value}
    (he : e.index = q + entries.length + 1) : IndexedFrom q (entries ++ [e]) := by
  intro p e' hp
  rw [List.getElem?_append] at hp
  split_ifs at hp with hlt
  · exact h p e' hp
  · obtain ⟨h0, rfl⟩ : p - entries.length = 0 ∧ e = e' := by
      rw [List.getElem?_singleton] at hp
      split_ifs at hp with h0
      exact ⟨h0, Option.some.inj hp⟩
    rw [he]
    omega

theorem tail {e : ReplicatedEntry Value} {rest : List (ReplicatedEntry Value)}
    (h : IndexedFrom q (e :: rest)) : IndexedFrom (q + 1) rest := h.drop 1

end IndexedFrom

namespace LogMatching

variable {l l' : List (ReplicatedEntry Value)}

theorem of_isPrefix (h : l <+: l') : LogMatching l l' := by
  intro p e e' he _ _
  exact (take_eq_of_isPrefix h (lt_length_of_getElem?_some he)).symm

theorem take_right (h : LogMatching l l') (m : Nat) : LogMatching l (l'.take m) := by
  intro p e e' he he' hterm
  rw [h p e e' he (getElem?_of_take he') hterm, List.take_take]
  have hp := lt_length_of_getElem?_some he'
  rw [List.length_take] at hp
  rw [min_eq_left (by omega)]

/-- A position where the terms agree makes the log up to it a common prefix. -/
theorem take_isPrefix (h : LogMatching l l') {p : Nat} {e e' : ReplicatedEntry Value}
    (he : l[p]? = some e) (he' : l'[p]? = some e') (hterm : e.term = e'.term) :
    l.take (p + 1) <+: l' := by
  rw [h p e e' he he' hterm]
  exact List.take_prefix _ _

end LogMatching

/-- The term of the last of the first `q` entries, 0 when there is none. -/
def termBefore (log : List (ReplicatedEntry Value)) (q : Nat) : Nat :=
  if q = 0 then 0 else (log[q - 1]?).elim 0 ReplicatedEntry.term

theorem termBefore_of_getElem? {log : List (ReplicatedEntry Value)} {q : Nat}
    {e : ReplicatedEntry Value} (h : log[q]? = some e) : termBefore log (q + 1) = e.term := by
  simp [termBefore, h]

/-! ## The entry loop on a slice -/

namespace ClusterNode

/-- Entries that continue the log are all appended. -/
theorem appendEntries_extend {log : List (ReplicatedEntry Value)}
    (entries : List (ReplicatedEntry Value)) (h : IndexedFrom log.length entries) :
    appendEntries log entries = (log ++ entries, true) := by
  induction entries generalizing log with
  | nil => rw [appendEntries, List.append_nil]
  | cons entry rest ih =>
    have hidx : entry.index = log.length + 1 := h 0 entry rfl
    have hnone : log[entry.index - 1]? = none :=
      List.getElem?_eq_none_iff.mpr (by omega)
    have hrest : IndexedFrom (log ++ [entry]).length rest := by
      rw [List.length_append, List.length_singleton]
      exact h.tail
    rw [appendEntries, if_neg (by omega)]
    simp only [hnone]
    rw [if_pos (by omega), ih hrest, List.append_assoc, List.singleton_append]

/-- A log that is the start of the sender's grows by the slice that follows. -/
theorem appendEntries_take {source : List (ReplicatedEntry Value)} (hidx : IndexedFrom 0 source)
    {entries : List (ReplicatedEntry Value)} {q : Nat} (hslice : entries <+: source.drop q)
    (hq : q ≤ source.length) :
    appendEntries (source.take q) entries = (source.take (q + entries.length), true) := by
  have hfrom : IndexedFrom (source.take q).length entries := by
    have hdrop := hidx.drop q
    rw [List.length_take_of_le hq]
    rw [Nat.zero_add] at hdrop
    intro p e he
    exact hdrop p e (prefix_getElem?_some hslice he)
  rw [appendEntries_extend entries hfrom, List.take_add, ← List.prefix_iff_eq_take.mp hslice]

/-- On a slice of a matching log the loop either finds everything in place or leaves the
sender's log up to the end of the slice. -/
theorem appendEntries_slice {source log : List (ReplicatedEntry Value)}
    (hidx : IndexedFrom 0 source) (hmatch : LogMatching source log)
    (entries : List (ReplicatedEntry Value)) {q : Nat} (hpre : source.take q <+: log)
    (hslice : entries <+: source.drop q) (hq : q ≤ source.length) :
    (source.take (q + entries.length) <+: log ∧ appendEntries log entries = (log, true)) ∨
      (¬ source.take (q + entries.length) <+: log ∧
        appendEntries log entries = (source.take (q + entries.length), true)) := by
  -- `q` moves through the slice while the entries before it are in place
  induction entries generalizing q with
  | nil => exact Or.inl ⟨hpre, rfl⟩
  | cons entry rest ih =>
    obtain ⟨hentry, hrest⟩ := cons_isPrefix_drop hslice
    have hlt : q < source.length := lt_length_of_getElem?_some hentry
    have hindex : entry.index = q + 1 := by
      rw [hidx q entry hentry, Nat.zero_add]
    have hlen : (source.take q).length = q := List.length_take_of_le hq
    have htake : source.take (q + 1) = source.take q ++ [entry] := by
      rw [List.take_add_one, hentry, Option.toList_some]
    have hcount : q + (entry :: rest).length = q + 1 + rest.length := by
      rw [List.length_cons]
      omega
    have hgrow : appendEntries (source.take q ++ [entry]) rest =
        (source.take (q + (entry :: rest).length), true) := by
      rw [← htake, hcount]
      exact appendEntries_take hidx hrest hlt
    -- where the whole slice is in place, the entry is
    have hplace : source.take (q + (entry :: rest).length) <+: log → log[q]? = some entry := by
      intro h
      refine prefix_getElem?_some h ?_
      rw [List.getElem?_take_of_lt (by omega), hentry]
    rw [appendEntries, if_neg (by omega)]
    simp only [show entry.index - 1 = q by omega]
    cases hold : log[q]? with
    | some old =>
      dsimp only
      by_cases hterm : old.term = entry.term
      · rw [if_neg (not_not.mpr hterm), hcount]
        exact ih (hmatch.take_isPrefix hentry hold hterm.symm) hrest hlt
      · rw [if_pos hterm]
        have hsame : log.take q = source.take q := by
          rw [take_eq_of_isPrefix hpre hlen.ge, List.take_take, min_self]
        rw [hsame, hgrow]
        refine Or.inr ⟨fun h => hterm ?_, rfl⟩
        have hin := hplace h
        rw [hold] at hin
        rw [Option.some.inj hin]
    | none =>
      have hge : log.length ≤ q := List.getElem?_eq_none_iff.mp hold
      have heq : source.take q = log := hpre.eq_of_length (by
        have := hpre.length_le
        omega)
      dsimp only
      rw [if_pos (by rw [← heq, hlen])]
      rw [← heq, hgrow, heq]
      refine Or.inr ⟨fun h => ?_, rfl⟩
      have hin := hplace h
      rw [hold] at hin
      cases hin

/-! ## The request for a slice -/

/-- The request that sends the entries after position `q`. -/
def sliceRequest (n : ClusterNode Value) (q : Nat) : AppendRequest Value where
  term := n.state.term
  leaderId := n.config.nodeId
  prevLogIndex := q
  prevLogTerm := termBefore n.log q
  entries := (n.log.drop q).take n.config.replicationBatchSize
  leaderCommit := n.state.commitIndex

theorem prepareAppend_eq {n : ClusterNode Value} (hrole : n.state.role = .leader)
    (hidx : IndexedFrom 0 n.log) {id : NodeId} {status : PeerStatus}
    (hget : n.peerStatus.get id = some status) {q : Nat} (hnext : status.nextIndex = q + 1)
    (hq : q ≤ n.log.length) (hlen : n.log.length < u64Max) :
    n.prepareAppend id = some (n.sliceRequest q) := by
  have hsub : wrappingSub (q + 1) 1 = q := by
    unfold wrappingSub
    unfold u64Max at hlen
    omega
  simp only [prepareAppend, hrole, ne_eq, not_true_eq_false, if_false, hget, Option.bind_eq_bind,
    Option.bind_some, hnext, hsub]
  cases q with
  | zero => rfl
  | succ q =>
    obtain ⟨e, he⟩ : ∃ e, n.log[q]? = some e := ⟨_, List.getElem?_eq_getElem (by omega)⟩
    rw [if_pos (by omega), show q + 1 + 1 - 2 = q by omega, he]
    simp only [Option.map_some, Option.bind_some, sliceRequest, termBefore_of_getElem? he,
      hidx q e he, Nat.zero_add]
    rfl

/-- Past the end of the log there is no previous entry to name. -/
theorem prepareAppend_past {n : ClusterNode Value} {id : NodeId} {status : PeerStatus}
    (hget : n.peerStatus.get id = some status) (hnext : n.log.length + 1 < status.nextIndex) :
    n.prepareAppend id = none := by
  have hnone : n.log[status.nextIndex - 2]? = none := List.getElem?_eq_none_iff.mpr (by omega)
  simp only [prepareAppend, hget, Option.bind_eq_bind, Option.bind_some, hnone]
  rw [if_pos (show status.nextIndex > 1 by omega), Option.map_none, Option.bind_none, ite_self]

/-- The consistency check passes exactly where the sender's first `q` entries are in place;
a conflict is cut off and a short log left alone. -/
theorem consistencyCheck_slice {source log : List (ReplicatedEntry Value)}
    (hmatch : LogMatching source log) {q : Nat} (hq : q ≤ source.length) :
    (source.take q <+: log ∧ consistencyCheck log q (termBefore source q) = none) ∨
      (log.length < q ∧ consistencyCheck log q (termBefore source q) = some log) ∨
      (0 < q ∧ q ≤ log.length ∧ ¬ source.take q <+: log ∧
        consistencyCheck log q (termBefore source q) = some (log.take (q - 1))) := by
  cases q with
  | zero => exact Or.inl ⟨List.nil_prefix, rfl⟩
  | succ q =>
    obtain ⟨e, he⟩ : ∃ e, source[q]? = some e := ⟨_, List.getElem?_eq_getElem hq⟩
    rw [termBefore_of_getElem? he]
    unfold consistencyCheck
    rw [if_pos q.succ_pos, Nat.add_sub_cancel]
    cases hold : log[q]? with
    | some old =>
      have hlt := lt_length_of_getElem?_some hold
      by_cases hterm : old.term = e.term
      · exact Or.inl ⟨hmatch.take_isPrefix he hold hterm.symm, if_neg (not_not.mpr hterm)⟩
      · refine Or.inr (Or.inr ⟨q.succ_pos, hlt, fun h => hterm ?_, if_pos hterm⟩)
        have hin := prefix_getElem?_some h (i := q) (a := e)
          (by rw [List.getElem?_take_of_lt q.lt_succ_self, he])
        rw [hold] at hin
        rw [Option.some.inj hin]
    | none =>
      have hge : log.length ≤ q := List.getElem?_eq_none_iff.mp hold
      exact Or.inr (Or.inl ⟨by omega, if_pos (by omega)⟩)

theorem take_isPrefix_of_consistencyCheck {source log : List (ReplicatedEntry Value)}
    (hmatch : LogMatching source log) {q : Nat} (hq : q ≤ source.length)
    (hcheck : consistencyCheck log q (termBefore source q) = none) : source.take q <+: log := by
  rcases consistencyCheck_slice hmatch hq with ⟨hpre, -⟩ | ⟨-, hsome⟩ | ⟨-, -, -, hsome⟩
  · exact hpre
  · cases hsome.symm.trans hcheck
  · cases hsome.symm.trans hcheck

end ClusterNode

end Wardex.Cluster
