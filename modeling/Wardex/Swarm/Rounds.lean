import Mathlib.Data.Nat.ModEq
import Wardex.Lib.Decimal
import Wardex.Lib.Run
import Wardex.Lib.Visits
import Wardex.Swarm.Gossip

/-! Vote rounds over a whole run of a node.  A proposal takes its id from the counter of the
broadcasts without advancing it, so two proposals need a broadcast between them; and a peer may
have asked for a vote under the same id. -/

namespace Wardex.Swarm

open Wardex.Lib Wardex.Policy

variable {F : Type}

inductive Call (F : Type) where
  | proposeVote (proposal now : String)
  | broadcastStatus (threatLevel : ThreatLevel) (score battery cpu : F) (nowMs : Nat)
  | broadcastThreatIntel (payload : GossipPayload F) (nowMs : Nat)
  | receiveGossip (msg : GossipMessage F) (nowMs : Nat) (now : String)

def Call.isBroadcast : Call F → Bool
  | .broadcastStatus .. | .broadcastThreatIntel .. => true
  | _ => false

/-- The id of a proposal that follows the calls `earlier`. -/
def voteId (id : String) (earlier : List (Call F)) : String :=
  "vote-" ++ id ++ "-" ++ toString ((earlier.countP Call.isBroadcast + 1) % 2 ^ 64)

/-- Every round is still there, and with every vote that has been cast in it. -/
def Keeps (before after : KeyMap String (VoteRound F)) : Prop :=
  ∀ id round, before id = some round →
    ∃ votes, after id = some { round with votes := votes } ∧
      ∀ voter vote, round.votes voter = some vote → votes voter = some vote

section

variable [F64 F] (sha256 : List UInt8 → List UInt8)

def SwarmNode.perform (node : SwarmNode F) : Call F → SwarmNode F
  | .proposeVote proposal now => (node.proposeVote proposal now).1
  | .broadcastStatus threatLevel score battery cpu nowMs =>
    (node.broadcastStatus sha256 threatLevel score battery cpu nowMs).1
  | .broadcastThreatIntel payload nowMs => (node.broadcastThreatIntel sha256 payload nowMs).1
  | .receiveGossip msg nowMs now => (node.receiveGossip msg nowMs now).1

/-- The node `id` after the calls. -/
def after (id : String) (calls : List (Call F)) : SwarmNode F :=
  run (SwarmNode.perform sha256) (.new id) calls

/-- No proposal takes the id of an earlier round, every proposal has its round, and no round and
no vote is lost. -/
structure RoundsSafe (id : String) (calls : List (Call F)) : Prop where
  fresh : ∀ as bs proposal now cs, calls = as ++ bs ++ .proposeVote proposal now :: cs →
    let round := ((after sha256 id (as ++ bs)).proposeVote proposal now).2
    (after sha256 id as).activeVotes round.roundId = none ∧
      (after sha256 id (as ++ bs ++ [.proposeVote proposal now])).activeVotes round.roundId =
        some round
  kept : ∀ as bs cs, calls = as ++ bs ++ cs →
    Keeps (after sha256 id as).activeVotes (after sha256 id (as ++ bs)).activeVotes

/-- The condition on the call that follows the calls `earlier`. -/
def Clear (id : String) (earlier : List (Call F)) : Call F → Prop
  | .proposeVote _ _ =>
    -- the counter has moved since every earlier proposal, and no request has taken the id
    (∀ as proposal now bs, earlier = as ++ .proposeVote proposal now :: bs →
      ¬ 2 ^ 64 ∣ bs.countP Call.isBroadcast) ∧
    ∀ msg ∈ (after sha256 id earlier).inbox, ∀ proposal,
      msg.payload ≠ .voteRequest (voteId id earlier) proposal
  | .receiveGossip msg _ _ =>
    -- whoever has voted in a round does not vote otherwise
    ∀ roundId vote reason round old, msg.payload = .voteResponse roundId vote reason →
      msg.digest ∉ (after sha256 id earlier).seenDigests →
      (after sha256 id earlier).activeVotes roundId = some round →
      round.votes msg.senderId = some old → old = ⟨msg.senderId, vote, F64.one, reason⟩
  | _ => True

end

theorem Keeps.refl (rounds : KeyMap String (VoteRound F)) : Keeps rounds rounds :=
  fun _ round hround => ⟨round.votes, hround, fun _ _ hvote => hvote⟩

theorem Keeps.trans {a b c : KeyMap String (VoteRound F)} (hab : Keeps a b) (hbc : Keeps b c) :
    Keeps a c := by
  intro id round hround
  obtain ⟨votes, hb, hvotes⟩ := hab id round hround
  obtain ⟨votes', hc, hvotes'⟩ := hbc id _ hb
  exact ⟨votes', hc, fun voter vote h => hvotes' voter vote (hvotes voter vote h)⟩

theorem keeps_insert {rounds : KeyMap String (VoteRound F)} {id : String} (h : rounds id = none)
    (round : VoteRound F) : Keeps rounds (rounds.insert id round) := by
  intro id' round' hround'
  have hne : id' ≠ id := by
    rintro rfl
    rw [h] at hround'
    cases hround'
  exact ⟨round'.votes, by rw [rounds.insert_of_ne hne, hround'], fun _ _ hvote => hvote⟩

/-- A vote in an open round loses nothing but another vote of the same voter. -/
theorem keeps_castVote_iff {rounds : KeyMap String (VoteRound F)} {id : String}
    (hopen : ∀ round, rounds id = some round → round.status = .open) (vote : Vote F) :
    Keeps rounds (rounds.modify id fun round => round.castVote vote) ↔
      ∀ round old, rounds id = some round → round.votes vote.voterId = some old → old = vote := by
  have hcast : ∀ round, rounds id = some round →
      round.castVote vote = { round with votes := round.votes.insert vote.voterId vote } :=
    fun round hround => if_pos (hopen round hround)
  constructor
  · intro hkeeps round old hround hold
    obtain ⟨votes, hafter, hvotes⟩ := hkeeps id round hround
    rw [rounds.modify_self, hround, Option.map_some, hcast round hround] at hafter
    have hvotes' : round.votes.insert vote.voterId vote = votes :=
      congrArg VoteRound.votes (Option.some.inj hafter)
    have hsame : votes vote.voterId = some vote := by
      rw [← hvotes', KeyMap.insert_self]
    exact Option.some.inj ((hvotes _ old hold).symm.trans hsame)
  · intro hsame id' round hround
    by_cases hid : id' = id
    · subst hid
      refine ⟨round.votes.insert vote.voterId vote, ?_, fun voter old hold => ?_⟩
      · rw [rounds.modify_self, hround, Option.map_some, hcast round hround]
      · by_cases hvoter : voter = vote.voterId
        · subst hvoter
          rw [KeyMap.insert_self, hsame round old hround hold]
        · rw [KeyMap.insert_of_ne _ hvoter, hold]
    · exact ⟨round.votes, by rw [rounds.modify_of_ne hid, hround], fun _ _ hvote => hvote⟩

namespace SwarmNode

variable {node : SwarmNode F}

theorem shareIntel_frame (entry : IntelEntry F) : (node.shareIntel entry).id = node.id ∧
    (node.shareIntel entry).gossipSeq = node.gossipSeq ∧
    (node.shareIntel entry).inbox = node.inbox ∧
    (node.shareIntel entry).activeVotes = node.activeVotes := by
  unfold shareIntel
  exact ⟨rfl, rfl, rfl, rfl⟩

variable [F64 F]

/-- What a payload does to the rounds. -/
def roundsAfter (rounds : KeyMap String (VoteRound F)) (sender now : String) :
    GossipPayload F → KeyMap String (VoteRound F)
  | .voteRequest roundId proposal =>
    if rounds roundId = none then
      rounds.insert roundId (.new roundId proposal sender F64.half now)
    else rounds
  | .voteResponse roundId vote reason => rounds.modify roundId fun round =>
      round.castVote ⟨sender, vote, F64.one, reason⟩
  | _ => rounds

theorem process_frame (sender : String) (nowMs : Nat) (now : String) (payload : GossipPayload F) :
    (node.process sender nowMs now payload).id = node.id ∧
      (node.process sender nowMs now payload).gossipSeq = node.gossipSeq ∧
      (node.process sender nowMs now payload).inbox = node.inbox ∧
      (node.process sender nowMs now payload).activeVotes =
        roundsAfter node.activeVotes sender now payload := by
  cases payload with
  | statusUpdate threatLevel score batteryPct cpuLoadPct =>
    simp only [process, roundsAfter]
    split_ifs <;> exact ⟨rfl, rfl, rfl, rfl⟩
  | voteRequest roundId proposal =>
    simp only [process, roundsAfter]
    split_ifs <;> exact ⟨rfl, rfl, rfl, rfl⟩
  | threatAlert => exact ⟨rfl, rfl, rfl, rfl⟩
  | policyUpdate => exact ⟨rfl, rfl, rfl, rfl⟩
  | voteResponse => exact ⟨rfl, rfl, rfl, rfl⟩
  | lateralMovementIntel => exact shareIntel_frame _
  | uebaIntel => exact shareIntel_frame _
  | beaconIntel => exact shareIntel_frame _
  | threatIntelUpdate => exact shareIntel_frame _

end SwarmNode

theorem roundsAfter_isSome [F64 F] (rounds : KeyMap String (VoteRound F)) (sender now : String)
    (payload : GossipPayload F) (r : String) :
    SwarmNode.roundsAfter rounds sender now payload r ≠ none ↔
      rounds r ≠ none ∨ ∃ proposal, payload = .voteRequest r proposal := by
  unfold SwarmNode.roundsAfter
  split
  · next roundId proposal =>
    by_cases hr : r = roundId
    · subst hr
      split_ifs with hnone <;> simp [hnone]
    · have hother : ∀ p, GossipPayload.voteRequest (F := F) roundId proposal ≠ .voteRequest r p :=
        fun p h => hr (GossipPayload.voteRequest.inj h).1.symm
      split_ifs
      · simp [KeyMap.insert_of_ne _ hr, hother]
      · simp [hother]
  · next roundId vote reason =>
    by_cases hr : r = roundId
    · subst hr
      simp
    · simp [KeyMap.modify_of_ne _ hr]
  · next hrequest _ =>
    have hother : ∀ p, payload ≠ .voteRequest r p := fun p => hrequest r p
    simp [hother]

theorem roundsAfter_open [F64 F] {rounds : KeyMap String (VoteRound F)} {sender now : String}
    {payload : GossipPayload F} {r : String} {round : VoteRound F}
    (hopen : ∀ r round, rounds r = some round → round.status = .open)
    (h : SwarmNode.roundsAfter rounds sender now payload r = some round) :
    round.status = .open := by
  unfold SwarmNode.roundsAfter at h
  split at h
  · next roundId proposal =>
    split_ifs at h
    · by_cases hr : r = roundId
      · subst hr
        rw [KeyMap.insert_self] at h
        cases h
        rfl
      · rw [KeyMap.insert_of_ne _ hr] at h
        exact hopen r round h
    · exact hopen r round h
  · next roundId vote reason =>
    by_cases hr : r = roundId
    · subst hr
      rw [KeyMap.modify_self] at h
      obtain ⟨old, hold, rfl⟩ := Option.map_eq_some_iff.mp h
      have hstatus := hopen r old hold
      rw [VoteRound.castVote, if_pos hstatus]
      exact hstatus
    · rw [KeyMap.modify_of_ne _ hr] at h
      exact hopen r round h
  · exact hopen r round h

theorem receiveGossip_frame [F64 F] {node : SwarmNode F} {msg : GossipMessage F}
    (hnew : msg.digest ∉ node.seenDigests) (nowMs : Nat) (now : String) :
    (node.receiveGossip msg nowMs now).1.id = node.id ∧
      (node.receiveGossip msg nowMs now).1.gossipSeq = node.gossipSeq ∧
      (node.receiveGossip msg nowMs now).1.inbox = node.inbox ++ [msg] ∧
      (node.receiveGossip msg nowMs now).1.activeVotes =
        SwarmNode.roundsAfter node.activeVotes msg.senderId now msg.payload := by
  rw [SwarmNode.receiveGossip, if_neg hnew]
  obtain ⟨hid, hseq, hinbox, hvotes⟩ := @SwarmNode.process_frame F
    { node with seenDigests := node.seenDigests ++ [msg.digest] } _ msg.senderId nowMs now
    msg.payload
  exact ⟨hid, hseq, congrArg (· ++ [msg]) hinbox, hvotes⟩

variable [F64 F] {sha256 : List UInt8 → List UInt8} {id : String} {calls : List (Call F)}

theorem after_snoc (call : Call F) :
    after sha256 id (calls ++ [call]) = (after sha256 id calls).perform sha256 call :=
  run_append ..

/-- The id `r` is one of those that the proposals among the calls took. -/
def Proposed (id : String) (calls : List (Call F)) (r : String) : Prop :=
  ∃ as proposal now bs, calls = as ++ .proposeVote proposal now :: bs ∧ r = voteId id as

omit [F64 F] in
theorem proposed_snoc {call : Call F} {r : String} : Proposed id (calls ++ [call]) r ↔
    Proposed id calls r ∨
      ∃ proposal now, call = .proposeVote proposal now ∧ r = voteId id calls := by
  constructor
  · rintro ⟨as, proposal, now, bs, hcalls, hr⟩
    rcases snoc_eq_append_cons.mp hcalls with ⟨bs', _, hcalls'⟩ | ⟨_, hcall, rfl⟩
    · exact Or.inl ⟨as, proposal, now, bs', hcalls', hr⟩
    · exact Or.inr ⟨proposal, now, hcall.symm, hr⟩
  · rintro (⟨as, proposal, now, bs, hcalls, hr⟩ | ⟨proposal, now, rfl, hr⟩)
    · exact ⟨as, proposal, now, bs ++ [call], by rw [hcalls, List.append_assoc, List.cons_append],
        hr⟩
    · exact ⟨calls, proposal, now, [], rfl, hr⟩

variable (sha256 id calls) in
/-- What the calls made so far say about the node. -/
structure Tracked : Prop where
  named : (after sha256 id calls).id = id
  counted : (after sha256 id calls).gossipSeq = calls.countP Call.isBroadcast % 2 ^ 64
  opened : ∀ r round, (after sha256 id calls).activeVotes r = some round → round.status = .open
  known : ∀ r, (after sha256 id calls).activeVotes r ≠ none ↔ Proposed id calls r ∨
    ∃ msg ∈ (after sha256 id calls).inbox, ∃ proposal, msg.payload = .voteRequest r proposal

theorem Tracked.proposalId_eq (h : Tracked sha256 id calls) :
    (after sha256 id calls).proposalId = voteId id calls := by
  rw [SwarmNode.proposalId, h.named, h.counted, nextSequence, Nat.mod_add_mod, voteId]

/-- A call that touches neither the rounds nor the inbox. -/
theorem Tracked.broadcast (h : Tracked sha256 id calls) {call : Call F}
    (hcall : call.isBroadcast = true) : Tracked sha256 id (calls ++ [call]) := by
  have hcount : (calls ++ [call]).countP Call.isBroadcast = calls.countP Call.isBroadcast + 1 := by
    rw [List.countP_append, List.countP_singleton, if_pos hcall]
  have hstep : (after sha256 id (calls ++ [call])) = { after sha256 id calls with
      gossipSeq := nextSequence (after sha256 id calls).gossipSeq } := by
    rw [after_snoc]
    cases call with
    | broadcastStatus => rfl
    | broadcastThreatIntel => rfl
    | proposeVote => cases hcall
    | receiveGossip => cases hcall
  refine ⟨by rw [hstep, h.named], ?_, ?_, fun r => ?_⟩
  · rw [hstep, hcount, h.counted, nextSequence, Nat.mod_add_mod]
  · rw [hstep]
    exact h.opened
  · have hnot : ¬ ∃ proposal now, call = .proposeVote proposal now ∧ r = voteId id calls := by
      rintro ⟨proposal, now, rfl, _⟩
      cases hcall
    rw [hstep, proposed_snoc, or_iff_left hnot]
    exact h.known r

theorem Tracked.proposeVote (h : Tracked sha256 id calls) (proposal now : String) :
    Tracked sha256 id (calls ++ [.proposeVote proposal now]) := by
  have hstep := @after_snoc F _ sha256 id calls (.proposeVote proposal now)
  have hvotes : (after sha256 id (calls ++ [.proposeVote proposal now])).activeVotes =
      (after sha256 id calls).activeVotes.insert (voteId id calls)
        (.new (voteId id calls) proposal (after sha256 id calls).id F64.half now) := by
    rw [hstep, ← h.proposalId_eq]
    rfl
  refine ⟨by rw [hstep]; exact h.named, ?_, fun r round hround => ?_, fun r => ?_⟩
  · rw [hstep, List.countP_append]
    exact h.counted
  · rw [hvotes] at hround
    by_cases hr : r = voteId id calls
    · subst hr
      rw [KeyMap.insert_self] at hround
      cases hround
      rfl
    · rw [KeyMap.insert_of_ne _ hr] at hround
      exact h.opened r round hround
  · rw [hvotes, proposed_snoc]
    by_cases hr : r = voteId id calls
    · subst hr
      simp
    · rw [KeyMap.insert_of_ne _ hr, h.known r, hstep]
      simp [hr, SwarmNode.perform, SwarmNode.proposeVote]

theorem Tracked.receiveGossip (h : Tracked sha256 id calls) (msg : GossipMessage F) (nowMs : Nat)
    (now : String) : Tracked sha256 id (calls ++ [.receiveGossip msg nowMs now]) := by
  have hstep : after sha256 id (calls ++ [.receiveGossip msg nowMs now]) =
      ((after sha256 id calls).receiveGossip msg nowMs now).1 := after_snoc _
  have hcount : (calls ++ [Call.receiveGossip msg nowMs now]).countP Call.isBroadcast =
      calls.countP Call.isBroadcast := by
    rw [List.countP_append]
    rfl
  have hproposed : ∀ r, Proposed id (calls ++ [.receiveGossip msg nowMs now]) r ↔
      Proposed id calls r := fun r =>
    proposed_snoc.trans (or_iff_left fun ⟨_, _, hcall, _⟩ => nomatch hcall)
  by_cases hseen : msg.digest ∈ (after sha256 id calls).seenDigests
  · have hsame : after sha256 id (calls ++ [.receiveGossip msg nowMs now]) =
        after sha256 id calls := by
      rw [hstep, SwarmNode.receiveGossip, if_pos hseen]
    refine ⟨?_, ?_, ?_, fun r => ?_⟩
    · rw [hsame, h.named]
    · rw [hsame, hcount, h.counted]
    · rw [hsame]
      exact h.opened
    · rw [hsame, hproposed]
      exact h.known r
  · obtain ⟨hid, hseq, hinbox, hvotes⟩ := receiveGossip_frame hseen nowMs now
    rw [← hstep] at hid hseq hinbox hvotes
    refine ⟨hid.trans h.named, ?_, fun r round hround => ?_, fun r => ?_⟩
    · rw [hseq, hcount, h.counted]
    · rw [hvotes] at hround
      exact roundsAfter_open h.opened hround
    · rw [hvotes, roundsAfter_isSome, h.known r, hproposed, hinbox, or_assoc]
      simp only [List.mem_append, List.mem_singleton, or_and_right, exists_or, exists_eq_left]

theorem tracked (calls : List (Call F)) : Tracked sha256 id calls := by
  induction calls using List.reverseRecOn with
  | nil =>
    refine ⟨rfl, rfl, fun r round hround => (nomatch hround), fun r => ?_⟩
    simp [after, SwarmNode.new, Proposed]
  | append_singleton calls call ih =>
    cases call with
    | proposeVote proposal now => exact ih.proposeVote proposal now
    | broadcastStatus => exact ih.broadcast rfl
    | broadcastThreatIntel => exact ih.broadcast rfl
    | receiveGossip msg nowMs now => exact ih.receiveGossip msg nowMs now

omit [F64 F] in
/-- The counter at an earlier proposal gave the same id only if it has not moved since, or has
gone all the way around. -/
theorem voteId_eq_iff {as bs : List (Call F)} {proposal now : String} :
    voteId id (as ++ .proposeVote proposal now :: bs) = voteId id as ↔
      2 ^ 64 ∣ bs.countP Call.isBroadcast := by
  rw [voteId, voteId, (numbered_injective ("vote-" ++ id ++ "-")).eq_iff]
  have hcount : (as ++ .proposeVote proposal now :: bs).countP Call.isBroadcast =
      as.countP Call.isBroadcast + bs.countP Call.isBroadcast := by
    rw [List.countP_append]
    rfl
  rw [hcount]
  omega

theorem voteId_fresh_iff : (after sha256 id calls).activeVotes (voteId id calls) = none ↔
    (∀ as proposal now bs, calls = as ++ .proposeVote proposal now :: bs →
      ¬ 2 ^ 64 ∣ bs.countP Call.isBroadcast) ∧
    ∀ msg ∈ (after sha256 id calls).inbox, ∀ proposal,
      msg.payload ≠ .voteRequest (voteId id calls) proposal := by
  rw [← not_iff_not, ← Ne, (tracked calls).known, not_and_or]
  refine or_congr ⟨?_, ?_⟩ (by simp)
  · rintro ⟨as, proposal, now, bs, hcalls, hid⟩ hmoved
    exact hmoved as proposal now bs hcalls (voteId_eq_iff.mp (hcalls ▸ hid))
  · intro hsame
    obtain ⟨as, proposal, now, bs, hcalls, hcount⟩ : ∃ as proposal now bs,
        calls = as ++ .proposeVote proposal now :: bs ∧ 2 ^ 64 ∣ bs.countP Call.isBroadcast := by
      simpa using hsame
    exact ⟨as, proposal, now, bs, hcalls, by rw [hcalls]; exact voteId_eq_iff.mpr hcount⟩

variable (sha256) in
/-- What one call must do for the rounds to be safe. -/
def Careful (node : SwarmNode F) (call : Call F) : Prop :=
  (∀ proposal now, call = .proposeVote proposal now →
    node.activeVotes node.proposalId = none) ∧
  Keeps node.activeVotes (node.perform sha256 call).activeVotes

theorem keeps_roundsAfter {rounds : KeyMap String (VoteRound F)} {sender now : String}
    {payload : GossipPayload F}
    (h : ∀ roundId vote reason, payload ≠ .voteResponse roundId vote reason) :
    Keeps rounds (SwarmNode.roundsAfter rounds sender now payload) := by
  unfold SwarmNode.roundsAfter
  split
  · split_ifs with hnone
    · exact keeps_insert hnone _
    · exact .refl _
  · next roundId vote reason => exact absurd rfl (h roundId vote reason)
  · exact .refl _

theorem keeps_receiveGossip_iff {node : SwarmNode F} (msg : GossipMessage F) (nowMs : Nat)
    (now : String) (hopen : ∀ r round, node.activeVotes r = some round → round.status = .open) :
    Keeps node.activeVotes (node.receiveGossip msg nowMs now).1.activeVotes ↔
      ∀ roundId vote reason round old, msg.payload = .voteResponse roundId vote reason →
        msg.digest ∉ node.seenDigests → node.activeVotes roundId = some round →
        round.votes msg.senderId = some old → old = ⟨msg.senderId, vote, F64.one, reason⟩ := by
  by_cases hseen : msg.digest ∈ node.seenDigests
  · rw [SwarmNode.receiveGossip, if_pos hseen]
    exact ⟨fun _ _ _ _ _ _ _ hnew => absurd hseen hnew, fun _ => .refl _⟩
  · rw [(receiveGossip_frame hseen nowMs now).2.2.2]
    by_cases hvote : ∃ roundId vote reason, msg.payload = .voteResponse roundId vote reason
    · obtain ⟨roundId, vote, reason, hpayload⟩ := hvote
      rw [hpayload, SwarmNode.roundsAfter, keeps_castVote_iff (hopen roundId)]
      constructor
      · intro hsame roundId' vote' reason' round old heq _ hround hold
        cases heq
        exact hsame round old hround hold
      · exact fun hsame round old => hsame roundId vote reason round old rfl hseen
    · have hother : ∀ roundId vote reason, msg.payload ≠ .voteResponse roundId vote reason :=
        fun roundId vote reason heq => hvote ⟨roundId, vote, reason, heq⟩
      exact ⟨fun _ roundId vote reason _ _ heq => absurd heq (hother roundId vote reason),
        fun _ => keeps_roundsAfter hother⟩

theorem careful_iff_clear (call : Call F) :
    Careful sha256 (after sha256 id calls) call ↔ Clear sha256 id calls call := by
  have htracked : Tracked sha256 id calls := tracked calls
  cases call with
  | proposeVote proposal now =>
    rw [Clear, ← voteId_fresh_iff, ← htracked.proposalId_eq]
    refine ⟨fun h => h.1 proposal now rfl, fun hfresh => ⟨fun _ _ _ => hfresh, ?_⟩⟩
    exact keeps_insert hfresh _
  | broadcastStatus => exact ⟨fun _ => trivial, fun _ => ⟨fun _ _ h => (nomatch h), .refl _⟩⟩
  | broadcastThreatIntel => exact ⟨fun _ => trivial, fun _ => ⟨fun _ _ h => (nomatch h), .refl _⟩⟩
  | receiveGossip msg nowMs now =>
    rw [Clear, ← keeps_receiveGossip_iff msg nowMs now htracked.opened]
    exact ⟨fun h => h.2, fun h => ⟨fun _ _ hcall => (nomatch hcall), h⟩⟩

/-- Over any number of careful calls no round and no vote is lost. -/
theorem keeps_of_careful {as bs : List (Call F)}
    (h : ∀ bs' call cs, bs = bs' ++ call :: cs →
      Careful sha256 (after sha256 id (as ++ bs')) call) :
    Keeps (after sha256 id as).activeVotes (after sha256 id (as ++ bs)).activeVotes := by
  induction bs using List.reverseRecOn with
  | nil =>
    rw [List.append_nil]
    exact .refl _
  | append_singleton bs call ih =>
    have hbefore := ih fun bs' call' cs hbs => h bs' call' (cs ++ [call]) (by
      rw [hbs, List.append_assoc, List.cons_append])
    rw [← List.append_assoc, after_snoc]
    exact hbefore.trans (h bs call [] rfl).2

/-- Over every sequence of calls: no round is merged and nothing is lost if and only if each call
meets the condition. -/
theorem roundsSafe_iff_clear (sha256 : List UInt8 → List UInt8) (id : String)
    (calls : List (Call F)) : RoundsSafe sha256 id calls ↔
      ∀ as call bs, calls = as ++ call :: bs → Clear sha256 id as call := by
  simp only [← careful_iff_clear]
  constructor
  · intro hsafe as call bs hcalls
    refine ⟨fun proposal now hcall => ?_, ?_⟩
    · subst hcall
      have hfresh := (hsafe.fresh as [] proposal now bs (by rw [List.append_nil, hcalls])).1
      rw [List.append_nil] at hfresh
      exact hfresh
    · have hkept := hsafe.kept as [call] bs (by rw [hcalls, List.append_assoc]; rfl)
      rwa [after_snoc] at hkept
  · intro hcareful
    have hkept : ∀ as bs cs, calls = as ++ bs ++ cs →
        Keeps (after sha256 id as).activeVotes (after sha256 id (as ++ bs)).activeVotes := by
      intro as bs cs hcalls
      refine keeps_of_careful fun bs' call cs' hbs => hcareful _ call (cs' ++ cs) ?_
      rw [hcalls, hbs]
      simp only [List.append_assoc, List.cons_append]
    refine ⟨fun as bs proposal now cs hcalls => ⟨?_, ?_⟩, hkept⟩
    · -- a round of an earlier state would still be there
      have hnone := (hcareful _ _ _ hcalls).1 proposal now rfl
      cases hround : (after sha256 id as).activeVotes (after sha256 id (as ++ bs)).proposalId with
      | none => exact hround
      | some round =>
        obtain ⟨votes, hlater, _⟩ := hkept as bs _ hcalls _ round hround
        rw [hnone] at hlater
        cases hlater
    · rw [after_snoc]
      exact KeyMap.insert_self ..

def isolateVote : GossipMessage Unit where
  senderId := "n2"
  sequence := 1
  timestampMs := 1000
  payload := .voteResponse "vote-n1-1" true "confirmed"
  digest := "d1"
  ttl := 5

def twoProposals : List (Call Unit) :=
  [.proposeVote "isolate" "t0", .receiveGossip isolateVote 1000 "t1", .proposeVote "release" "t2"]

/-- The second proposal takes the place of the first one and of the vote cast in it. -/
theorem proposals_merged :
    letI := PlaybookDsl.noFloats
    let before := after (fun _ => []) "n1" (twoProposals.take 2)
    let later := after (fun _ => []) "n1" twoProposals
    ((before.activeVotes "vote-n1-1").map fun r => (r.proposal, (r.votes "n2").isSome)) =
        some ("isolate", true) ∧
      ((later.activeVotes "vote-n1-1").map fun r => (r.proposal, (r.votes "n2").isSome)) =
        some ("release", false) ∧
      ¬ RoundsSafe (fun _ => []) "n1" twoProposals := by
  let := PlaybookDsl.noFloats
  refine ⟨by decide +kernel, by decide +kernel, fun hsafe => ?_⟩
  have hfresh := (hsafe.fresh [.proposeVote "isolate" "t0"] [.receiveGossip isolateVote 1000 "t1"]
    "release" "t2" [] rfl).1
  exact absurd hfresh (by decide +kernel)

end Wardex.Swarm
