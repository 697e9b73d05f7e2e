import Mathlib.Algebra.Order.Field.Rat
import Mathlib.Data.List.Nodup
import Wardex.Lib.Run
import Wardex.Policy.Correctness
import Wardex.Swarm.Gossip

/-! Tallies of a vote round.  `cast_vote` looks whether the round is open; `tally` does not, and a
decided round is decided again for each electorate.  Confidence weights and the quorum are exact
rationals. -/

namespace Wardex.Swarm

open Wardex.Lib Wardex.Policy

/-- A round with the keys of its votes, in the order in which the map iterates. -/
structure ListedRound where
  round : VoteRound ℚ
  voters : List String
  nodup : voters.Nodup
  complete : ∀ voter, voter ∈ voters ↔ (round.votes voter).isSome

namespace ListedRound

/-- `votes.values()`. -/
def votes (p : ListedRound) : List (Vote ℚ) := p.voters.filterMap p.round.votes

def setStatus (p : ListedRound) (status : VoteStatus) : ListedRound :=
  { p with round := { p.round with status := status } }

def castVote (p : ListedRound) (vote : Vote ℚ) : ListedRound where
  round := p.round.castVote vote
  voters :=
    if p.round.status = .open ∧ vote.voterId ∉ p.voters then p.voters ++ [vote.voterId]
    else p.voters
  nodup := by
    split_ifs with h
    · exact List.concat_eq_append ▸ p.nodup.concat h.2
    · exact p.nodup
  complete voter := by
    rw [VoteRound.castVote]
    by_cases hopen : p.round.status = .open
    · simp only [hopen, true_and, if_true]
      by_cases hvoter : voter = vote.voterId
      · subst hvoter
        rw [KeyMap.insert_self]
        split_ifs with h <;> simp_all
      · rw [KeyMap.insert_of_ne _ hvoter, ← p.complete]
        split_ifs with h <;> simp [hvoter]
    · simp only [hopen, false_and, if_false]
      exact p.complete voter

/-- The fraction of the electorate that has voted. -/
def participation (p : ListedRound) (totalVoters : ℕ) : ℚ := p.votes.length / totalVoters

def approvalRate (p : ListedRound) : ℚ :=
  let approveCount := (p.votes.filter Vote.approve).length
  let weightedApproval := ((p.votes.filter Vote.approve).map Vote.confidence).sum
  let weightedTotal := (p.votes.map Vote.confidence).sum
  if weightedTotal > 0 then weightedApproval / weightedTotal
  else if p.votes ≠ [] then approveCount / p.votes.length
  else 0

def tally (p : ListedRound) (totalVoters : ℕ) : ListedRound × VoteStatus :=
  if totalVoters = 0 then (p.setStatus .rejected, .rejected)
  else if p.participation totalVoters < p.round.quorumThreshold then (p, .open)
  else if p.approvalRate ≥ 1 / 2 then (p.setStatus .approved, .approved)
  else (p.setStatus .rejected, .rejected)

end ListedRound

inductive RoundCall where
  | castVote (vote : Vote ℚ)
  | tally (totalVoters : ℕ)

namespace ListedRound

def perform (p : ListedRound) : RoundCall → ListedRound
  | .castVote vote => p.castVote vote
  | .tally totalVoters => (p.tally totalVoters).1

def after (p : ListedRound) (calls : List RoundCall) : ListedRound := run perform p calls

/-- The electorate is empty, or enough of it have voted. -/
def Settles (p : ListedRound) (totalVoters : ℕ) : Prop :=
  totalVoters = 0 ∨ p.round.quorumThreshold ≤ p.participation totalVoters

/-- One of the calls was a tally for an electorate that settled the round. -/
def Settled (p : ListedRound) (earlier : List RoundCall) : Prop :=
  ∃ as n bs, earlier = as ++ .tally n :: bs ∧ (p.after as).Settles n

/-- No voter has two votes; and once a tally has decided, its decision and the votes stay, and
every later tally returns it. -/
structure DecisionsFinal (p : ListedRound) (calls : List RoundCall) : Prop where
  oneVote : ∀ as bs, calls = as ++ bs → ∀ voter, (p.after as).voters.count voter ≤ 1
  kept : ∀ as n bs cs, calls = as ++ .tally n :: bs ++ cs → ((p.after as).tally n).2 ≠ .open →
    (p.after (as ++ .tally n :: bs)).round.status = ((p.after as).tally n).2 ∧
      (p.after (as ++ .tally n :: bs)).round.votes = (p.after as).round.votes
  returned : ∀ as n bs m cs, calls = as ++ .tally n :: bs ++ .tally m :: cs →
    ((p.after as).tally n).2 ≠ .open →
    ((p.after (as ++ .tally n :: bs)).tally m).2 = ((p.after as).tally n).2

/-- The electorate gives the round the decision that it has: an empty one rejects, and another
one needs the quorum and the weights for it. -/
def Confirms (p : ListedRound) (totalVoters : ℕ) : Prop :=
  if totalVoters = 0 then p.round.status = .rejected
  else p.round.quorumThreshold ≤ p.participation totalVoters ∧
    p.round.status = if p.approvalRate ≥ 1 / 2 then .approved else .rejected

section

variable {p : ListedRound} {n : ℕ}

theorem after_snoc (p : ListedRound) (calls : List RoundCall) (call : RoundCall) :
    p.after (calls ++ [call]) = (p.after calls).perform call := run_append ..

theorem after_append (p : ListedRound) (as bs : List RoundCall) :
    p.after (as ++ bs) = (p.after as).after bs := run_append ..

theorem tally_ne_open_iff : (p.tally n).2 ≠ .open ↔ p.Settles n := by
  rw [tally, Settles, ← not_lt]
  split_ifs <;> simp_all

/-- A tally that decides sets the status that it returns, and nothing else. -/
theorem tally_decides (h : (p.tally n).2 ≠ .open) :
    (p.tally n).1 = p.setStatus (p.tally n).2 ∧
      ((p.tally n).2 = .approved ∨ (p.tally n).2 = .rejected) := by
  unfold tally at h ⊢
  split_ifs at h ⊢
  · exact ⟨rfl, .inr rfl⟩
  · exact absurd rfl h
  · exact ⟨rfl, .inl rfl⟩
  · exact ⟨rfl, .inr rfl⟩

theorem castVote_decided (h : p.round.status ≠ .open) (vote : Vote ℚ) : p.castVote vote = p := by
  obtain ⟨round, voters, _, _⟩ := p
  simp only [castVote, VoteRound.castVote, if_neg h, ListedRound.mk.injEq, true_and]
  exact if_neg fun hopen => h hopen.1

/-- A decided round stays as it is exactly in the tallies that confirm it. -/
theorem tally_eq_iff (h : p.round.status ≠ .open) :
    (p.tally n).1.round.status = p.round.status ∧ (p.tally n).2 = p.round.status ↔
      p.Confirms n := by
  rw [Confirms, tally]
  by_cases hzero : n = 0
  · rw [if_pos hzero, if_pos hzero]
    exact ⟨fun hsame => hsame.2.symm, fun hstatus => ⟨hstatus.symm, hstatus.symm⟩⟩
  rw [if_neg hzero, if_neg hzero]
  by_cases hquorum : p.participation n < p.round.quorumThreshold
  · rw [if_pos hquorum]
    exact iff_of_false (fun hsame => h hsame.2.symm) fun hconfirms => hquorum.not_ge hconfirms.1
  rw [if_neg hquorum]
  split_ifs <;>
    exact ⟨fun hsame => ⟨not_lt.mp hquorum, hsame.2.symm⟩,
      fun hconfirms => ⟨hconfirms.2.symm, hconfirms.2.symm⟩⟩

theorem tally_of_confirms (h : p.round.status ≠ .open) (hconfirms : p.Confirms n) :
    p.tally n = (p, p.round.status) := by
  obtain ⟨hstatus, hreturned⟩ := (tally_eq_iff h).mpr hconfirms
  have hdecides : (p.tally n).2 ≠ .open := by rwa [hreturned]
  refine Prod.ext ?_ hreturned
  rw [(tally_decides hdecides).1, hreturned]
  rfl

/-- A decided round does not change while its decision is confirmed. -/
theorem after_decided (h : p.round.status ≠ .open) {calls : List RoundCall}
    (hconfirms : ∀ as m bs, calls = as ++ .tally m :: bs → p.after as = p → p.Confirms m) :
    p.after calls = p := by
  induction calls using List.reverseRecOn with
  | nil => rfl
  | append_singleton calls call ih =>
    have hbefore : p.after calls = p := by
      refine ih fun as m bs hcalls => hconfirms as m (bs ++ [call]) ?_
      rw [hcalls, List.append_assoc, List.cons_append]
    rw [after_snoc, hbefore]
    cases call with
    | castVote vote => exact castVote_decided h vote
    | tally m => exact congrArg Prod.fst (tally_of_confirms h (hconfirms calls m [] rfl hbefore))

end

end ListedRound

/-- A round that one voter has approved. -/
def approvedRound : ListedRound where
  round :=
    { VoteRound.new "vote-1" "isolate" "n1" (1 / 2) "t0" with
      votes := KeyMap.empty.insert "n2" ⟨"n2", true, 1, "confirmed"⟩ }
  voters := ["n2"]
  nodup := List.nodup_singleton "n2"
  complete voter := by
    by_cases hvoter : voter = "n2"
    · simp [hvoter]
    · simp [hvoter, KeyMap.insert_of_ne]

end Wardex.Swarm
