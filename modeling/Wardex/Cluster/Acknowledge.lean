import Wardex.Cluster.Log

/-! What a follower acknowledges when it accepts a slice of its leader's log. The answer names the
length of its own log, which is longer than what was sent where a tail is left standing. -/

namespace Wardex.Cluster

open Wardex.Lib ClusterNode

variable {Value : Type}

/-- The request sends entries of the log that follow one another. -/
structure TakenFrom (source : List (ReplicatedEntry Value)) (req : AppendRequest Value) : Prop where
  position : req.prevLogIndex ≤ source.length
  term : req.prevLogTerm = termBefore source req.prevLogIndex
  entries : req.entries <+: source.drop req.prevLogIndex

/-- A successful answer names the end of what was sent, up to which the follower has the sender's
entries, and nothing beyond it gets committed. -/
def Acknowledged (n : ClusterNode Value) (req : AppendRequest Value)
    (source : List (ReplicatedEntry Value)) : Prop :=
  (n.handleAppend req).2.success = true →
    (n.handleAppend req).2.matchIndex = req.prevLogIndex + req.entries.length ∧
      (LogMatching source n.log →
        (n.handleAppend req).1.log.take (n.handleAppend req).2.matchIndex =
          source.take (n.handleAppend req).2.matchIndex) ∧
      (n.handleAppend req).1.state.commitIndex ≤
        max n.state.commitIndex (min req.leaderCommit (n.handleAppend req).2.matchIndex)

/-- The request is of no earlier term, and what precedes its entries is in place. -/
def Accepts (n : ClusterNode Value) (req : AppendRequest Value) : Prop :=
  n.state.term ≤ req.term ∧ consistencyCheck n.log req.prevLogIndex req.prevLogTerm = none

/-- An entry sent has another term than the one in its place. -/
def Conflict (log entries : List (ReplicatedEntry Value)) (q : Nat) : Prop :=
  ∃ p old e, log[q + p]? = some old ∧ entries[p]? = some e ∧ old.term ≠ e.term

/-- No tail is left standing behind what is sent. -/
def EndsWithin (n : ClusterNode Value) (req : AppendRequest Value) : Prop :=
  n.log.length ≤ req.prevLogIndex + req.entries.length ∨
    Conflict n.log req.entries req.prevLogIndex

theorem conflict_cons {log rest : List (ReplicatedEntry Value)} {entry old : ReplicatedEntry Value}
    {q : Nat} (hold : log[q]? = some old) :
    Conflict log (entry :: rest) q ↔ old.term ≠ entry.term ∨ Conflict log rest (q + 1) := by
  constructor
  · rintro ⟨p, old', e, hold', he, hterm⟩
    cases p with
    | zero =>
      obtain rfl := Option.some.inj (hold.symm.trans hold')
      obtain rfl := Option.some.inj he
      exact Or.inl hterm
    | succ p => exact Or.inr ⟨p, old', e, by rw [← hold']; congr 1; omega, he, hterm⟩
  · rintro (hterm | ⟨p, old', e, hold', he, hterm⟩)
    · exact ⟨0, old, entry, hold, rfl, hterm⟩
    · exact ⟨p + 1, old', e, by rw [← hold']; congr 1; omega, he, hterm⟩

theorem not_conflict_of_length_le {log entries : List (ReplicatedEntry Value)} {q : Nat}
    (h : log.length ≤ q) : ¬ Conflict log entries q := by
  rintro ⟨p, old, e, hold, -, -⟩
  have hlt := lt_length_of_getElem?_some hold
  omega

/-- Entries that begin within the log are all taken up: a conflict cuts off what follows them, and
without one the log keeps its tail. -/
theorem appendEntries_within {log entries : List (ReplicatedEntry Value)} {q : Nat}
    (hidx : IndexedFrom q entries) (hq : q ≤ log.length) :
    ∃ log', appendEntries log entries = (log', true) ∧
      (Conflict log entries q → log'.length = q + entries.length) ∧
      (¬ Conflict log entries q → log'.length = max log.length (q + entries.length)) := by
  induction entries generalizing q with
  | nil =>
    refine ⟨log, rfl, fun h => ?_, fun _ => ?_⟩
    · obtain ⟨p, old, e, -, he, -⟩ := h
      cases he
    · rw [List.length_nil, Nat.add_zero, Nat.max_eq_left hq]
  | cons entry rest ih =>
    have hindex : entry.index = q + 1 := hidx 0 entry rfl
    rw [appendEntries, if_neg (by omega)]
    simp only [show entry.index - 1 = q by omega]
    cases hold : log[q]? with
    | some old =>
      have hlt := lt_length_of_getElem?_some hold
      dsimp only
      rw [conflict_cons hold]
      by_cases hterm : old.term = entry.term
      · rw [if_neg (not_not.mpr hterm)]
        obtain ⟨log', heq, hcut, hkeep⟩ := ih hidx.tail hlt
        refine ⟨log', heq, fun h => ?_, fun h => ?_⟩
        · rw [hcut (h.resolve_left (not_not.mpr hterm)), List.length_cons]
          omega
        · rw [hkeep fun hc => h (Or.inr hc), List.length_cons]
          congr 1
          omega
      · have hlen : (log.take q ++ [entry]).length = q + 1 := by
          rw [List.length_append, List.length_take_of_le hq, List.length_singleton]
        have hrest : IndexedFrom (log.take q ++ [entry]).length rest := hlen ▸ hidx.tail
        refine ⟨_, by rw [if_pos hterm, appendEntries_extend rest hrest], fun _ => ?_, fun h => ?_⟩
        · rw [List.length_append, hlen, List.length_cons]
          omega
        · exact absurd (Or.inl hterm) h
    | none =>
      have hge : log.length ≤ q := List.getElem?_eq_none_iff.mp hold
      have hlen : q = log.length := Nat.le_antisymm hq hge
      have hrest : IndexedFrom (log ++ [entry]).length rest := by
        rw [List.length_append, List.length_singleton, ← hlen]
        exact hidx.tail
      dsimp only
      refine ⟨_, by rw [if_pos hlen, appendEntries_extend rest hrest], fun h => ?_, fun _ => ?_⟩
      · exact absurd h (not_conflict_of_length_le hge)
      · rw [List.length_append, List.length_append, List.length_singleton, List.length_cons]
        omega

namespace TakenFrom

variable {source : List (ReplicatedEntry Value)} {n : ClusterNode Value}
  {req : AppendRequest Value}

theorem indexed (h : TakenFrom source req) (hidx : IndexedFrom 0 source) :
    IndexedFrom req.prevLogIndex req.entries := by
  have hdrop := hidx.drop req.prevLogIndex
  rw [Nat.zero_add] at hdrop
  exact fun p e he => hdrop p e (prefix_getElem?_some h.entries he)

end TakenFrom

theorem length_of_accepts {n : ClusterNode Value} {req : AppendRequest Value}
    (h : Accepts n req) : req.prevLogIndex ≤ n.log.length := by
  by_contra hlt
  have hnone : n.log[req.prevLogIndex - 1]? = none := List.getElem?_eq_none_iff.mpr (by omega)
  have hcheck := h.2
  rw [consistencyCheck, if_pos (by omega), hnone] at hcheck
  dsimp only at hcheck
  rw [if_pos (by omega)] at hcheck
  cases hcheck

/-- **When an acknowledgement is sound.**  For a slice of a leader's log, a follower acknowledges
what was sent if and only if it refuses the request or keeps no tail behind it. -/
theorem acknowledged_iff {n : ClusterNode Value} {req : AppendRequest Value}
    {source : List (ReplicatedEntry Value)} (hidx : IndexedFrom 0 source)
    (htaken : TakenFrom source req) :
    Acknowledged n req source ↔ (Accepts n req → EndsWithin n req) := by
  rcases handleAppend_cases n req with ⟨hterm, heq⟩ | ⟨-, log, hcheck, heq⟩ |
    ⟨hterm, hcheck, log, happend, heq⟩ | ⟨hterm, hcheck, log, happend, heq⟩
  · unfold Acknowledged
    rw [heq]
    exact iff_of_true nofun fun h => absurd h.1 (Nat.not_le_of_lt hterm)
  · unfold Acknowledged
    rw [heq]
    exact iff_of_true nofun fun h => nomatch hcheck.symm.trans h.2
  · obtain ⟨log', happend', -⟩ :=
      appendEntries_within (htaken.indexed hidx) (length_of_accepts ⟨hterm, hcheck⟩)
    cases happend.symm.trans happend'
  · have haccepts : Accepts n req := ⟨hterm, hcheck⟩
    obtain ⟨log', happend', hcut, hkeep⟩ :=
      appendEntries_within (htaken.indexed hidx) (length_of_accepts haccepts)
    obtain rfl : log = log' := congrArg Prod.fst (happend.symm.trans happend')
    have hends : log.length = req.prevLogIndex + req.entries.length ↔ EndsWithin n req := by
      by_cases hconflict : Conflict n.log req.entries req.prevLogIndex
      · exact iff_of_true (hcut hconflict) (Or.inr hconflict)
      · rw [hkeep hconflict, EndsWithin, or_iff_left hconflict]
        omega
    unfold Acknowledged
    rw [heq]
    constructor
    · exact fun h _ => hends.mp (h rfl).1
    · intro h _
      have hlen := hends.mpr (h haccepts)
      refine ⟨hlen, fun hmatch => ?_, ?_⟩
      · -- either all of the slice was in place, or the log is the leader's up to its end
        have hcheck' := hcheck
        rw [htaken.term] at hcheck'
        have hpre := take_isPrefix_of_consistencyCheck hmatch htaken.position hcheck'
        change log.take log.length = source.take log.length
        rw [hlen]
        rcases appendEntries_slice hidx hmatch req.entries hpre htaken.entries htaken.position with
          ⟨hinit, hslice⟩ | ⟨-, hslice⟩
        · obtain rfl : log = n.log := congrArg Prod.fst (happend.symm.trans hslice)
          have hlength : (source.take (req.prevLogIndex + req.entries.length)).length =
              req.prevLogIndex + req.entries.length := by
            have hentries := htaken.entries.length_le
            rw [List.length_drop] at hentries
            have hposition := htaken.position
            rw [List.length_take]
            omega
          rw [take_eq_of_isPrefix hinit hlength.ge, List.take_take, Nat.min_self]
        · obtain rfl : log = source.take (req.prevLogIndex + req.entries.length) :=
            congrArg Prod.fst (happend.symm.trans hslice)
          rw [List.take_take, Nat.min_self]
      · change (if req.leaderCommit > n.state.commitIndex then min req.leaderCommit log.length
          else n.state.commitIndex) ≤ max n.state.commitIndex (min req.leaderCommit log.length)
        split_ifs
        · exact Nat.le_max_right _ _
        · exact Nat.le_max_left _ _

def alertEntry (index term : Nat) : ReplicatedEntry String where
  index := index
  term := term
  timestamp := "2026-01-01T00:00:00+00:00"
  entryType := .alertCreated
  data := "alert"

/-- A follower whose log holds entries of the given terms. -/
def followerOf (terms : List Nat) : ClusterNode String :=
  { (new ⟨⟨"n2"⟩, [⟨"n1"⟩, ⟨"n3"⟩], 100⟩ : ClusterNode String) with
    log := terms.mapIdx fun i term => alertEntry (i + 1) term }

theorem acknowledged_next :
    Acknowledged (followerOf [1]) ⟨3, ⟨"n1"⟩, 1, 1, [alertEntry 2 3], 1⟩
      [alertEntry 1 1, alertEntry 2 3] :=
  (acknowledged_iff (by decide) ⟨by decide, by decide, by decide⟩).mpr fun _ => Or.inl (by decide)

/-- A heartbeat after the first entry acknowledges a second one that the leader does not have, and
commits it. -/
theorem tail_acknowledged :
    IndexedFrom 0 (followerOf [1, 2]).log ∧ IndexedFrom 0 [alertEntry 1 1, alertEntry 2 3] ∧
      TakenFrom [alertEntry 1 1, alertEntry 2 3] ⟨3, ⟨"n1"⟩, 1, 1, [], 2⟩ ∧
      LogMatching [alertEntry 1 1, alertEntry 2 3] (followerOf [1, 2]).log ∧
      ((followerOf [1, 2]).handleAppend ⟨3, ⟨"n1"⟩, 1, 1, [], 2⟩).2 = ⟨3, true, 2⟩ ∧
      ((followerOf [1, 2]).handleAppend ⟨3, ⟨"n1"⟩, 1, 1, [], 2⟩).1.state.commitIndex = 2 ∧
      ¬ Acknowledged (followerOf [1, 2]) ⟨3, ⟨"n1"⟩, 1, 1, [], 2⟩
        [alertEntry 1 1, alertEntry 2 3] := by
  refine ⟨by decide, by decide, ⟨by decide, by decide, by decide⟩, ?_, by decide, by decide, ?_⟩
  · intro p e e' he he' hterm
    match p with
    | 0 => rfl
    | 1 =>
      cases he
      cases he'
      exact absurd hterm (by decide)
    | p + 2 => cases he
  · exact fun h => absurd (h rfl).1 (by decide)

end Wardex.Cluster
