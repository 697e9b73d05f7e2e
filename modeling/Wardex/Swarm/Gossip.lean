import Mathlib.Algebra.Group.Nat.Defs
import Wardex.Audit.Log
import Wardex.Lib.KeyMap
import Wardex.Lib.Records
import Wardex.PlaybookDsl.Store

/-! A node of the swarm: gossip messages, shared intelligence, vote rounds.  The arithmetic of
`F64` stands for the single-precision numbers as well; SHA-256 and the clock are parameters. -/

namespace Wardex.Swarm

open Wardex.Lib Wardex.Policy Wardex.Audit
open PlaybookDsl (Value)

inductive ThreatLevel where
  | nominal
  | elevated
  | severe
  | critical
deriving DecidableEq

def ThreatLevel.asStr : ThreatLevel → String
  | nominal => "nominal"
  | elevated => "elevated"
  | severe => "severe"
  | critical => "critical"

inductive GossipPayload (F : Type) where
  | statusUpdate (threatLevel : String) (score batteryPct cpuLoadPct : F)
  | threatAlert (severity indicator : String) (confidence : F)
  | policyUpdate (policyHash : String) (version : Nat)
  | voteRequest (roundId proposal : String)
  | voteResponse (roundId : String) (vote : Bool) (reason : String)
  | lateralMovementIntel (srcHost dstHost protocol pattern : String) (riskScore : F)
      (mitreIds : List String)
  | uebaIntel (entityKind entityId anomalyType : String) (riskScore : F) (description : String)
  | beaconIntel (targetHost destIp destDomain : String) (beaconScore : F) (isDga : Bool)
      (mitreIds : List String)
  | threatIntelUpdate (iocType indicator : String) (confidence : F) (sourceAgent : String)
      (ttlHours : Nat)

structure GossipMessage (F : Type) where
  senderId : String
  sequence : Nat
  timestampMs : Nat
  payload : GossipPayload F
  digest : String
  ttl : Nat

def GossipMessage.new {F : Type} (sha256 : List UInt8 → List UInt8) (senderId : String)
    (sequence : Nat) (payload : GossipPayload F) (ts : Nat) : GossipMessage F where
  senderId := senderId
  sequence := sequence
  timestampMs := ts
  payload := payload
  digest := sha256Hex sha256
    (asBytes (senderId ++ ":" ++ toString sequence ++ ":" ++ toString ts))
  ttl := 5

structure IntelEntry (F : Type) where
  iocType : String
  indicator : String
  confidence : F
  sourceAgent : String
  receivedAt : String
  ttlHours : Nat
  metadata : Value F

/-- The entries of `SharedIntelCache` after an insertion. -/
def insertIntel {F : Type} (entries : List (IntelEntry F)) (entry : IntelEntry F) :
    List (IntelEntry F) :=
  let known : IntelEntry F → Bool := fun e =>
    e.iocType = entry.iocType ∧ e.indicator = entry.indicator
  let entries :=
    if entries.any known then updateFirst known (fun _ => entry) entries else entries ++ [entry]
  entries.drop (entries.length - 10000)

inductive DeviceStatus where
  | online
  | offline
  | quarantined
  | compromised
  | updating
  | decommissioned
deriving DecidableEq

structure DeviceRecord where
  deviceId : String
  name : String
  platform : String
  firmwareVersion : String
  enrolledAt : String
  lastSeenMs : Nat
  status : DeviceStatus
  tags : List String

inductive VoteStatus where
  | open
  | quorumReached
  | approved
  | rejected
  | expired
deriving DecidableEq

structure Vote (F : Type) where
  voterId : String
  approve : Bool
  confidence : F
  reason : String

structure VoteRound (F : Type) where
  roundId : String
  proposal : String
  initiator : String
  votes : KeyMap String (Vote F)
  quorumThreshold : F
  status : VoteStatus
  createdAt : String

variable {F : Type}

/-- `f32::clamp`. -/
def clamp [F64 F] (x lo hi : F) : F :=
  if F64.lt x lo then lo else if F64.gt x hi then hi else x

def VoteRound.new [F64 F] (roundId proposal initiator : String) (quorum : F) (now : String) :
    VoteRound F where
  roundId := roundId
  proposal := proposal
  initiator := initiator
  votes := .empty
  quorumThreshold := clamp quorum F64.zero F64.one
  status := .open
  createdAt := now

def VoteRound.castVote (round : VoteRound F) (vote : Vote F) : VoteRound F :=
  if round.status = .open then { round with votes := round.votes.insert vote.voterId vote }
  else round

structure SwarmNode (F : Type) where
  id : String
  devices : KeyMap String DeviceRecord
  gossipSeq : Nat
  inbox : List (GossipMessage F)
  seenDigests : List String
  activeVotes : KeyMap String (VoteRound F)
  peerScores : KeyMap String F
  intelCache : List (IntelEntry F)

/-- Counters are `u64` and wrap around. -/
def nextSequence (n : Nat) : Nat := (n + 1) % 2 ^ 64

namespace SwarmNode

def new (id : String) : SwarmNode F where
  id := id
  devices := .empty
  gossipSeq := 0
  inbox := []
  seenDigests := []
  activeVotes := .empty
  peerScores := .empty
  intelCache := []

def setDeviceStatus (node : SwarmNode F) (deviceId : String) (status : DeviceStatus)
    (nowMs : Nat) : SwarmNode F :=
  { node with devices :=
      node.devices.modify deviceId fun d => { d with status := status, lastSeenMs := nowMs } }

def broadcastThreatIntel (sha256 : List UInt8 → List UInt8) (node : SwarmNode F)
    (payload : GossipPayload F) (nowMs : Nat) : SwarmNode F × GossipMessage F :=
  let seq := nextSequence node.gossipSeq
  ({ node with gossipSeq := seq }, .new sha256 node.id seq payload nowMs)

def broadcastStatus (sha256 : List UInt8 → List UInt8) (node : SwarmNode F)
    (threatLevel : ThreatLevel) (score battery cpu : F) (nowMs : Nat) :
    SwarmNode F × GossipMessage F :=
  let seq := nextSequence node.gossipSeq
  ({ node with gossipSeq := seq },
    .new sha256 node.id seq (.statusUpdate threatLevel.asStr score battery cpu) nowMs)

def shareIntel (node : SwarmNode F) (entry : IntelEntry F) : SwarmNode F :=
  { node with intelCache := insertIntel node.intelCache entry }

variable [F64 F]

/-- The effect of a payload from `sender`; the clock is read in two forms. -/
def process (node : SwarmNode F) (sender : String) (nowMs : Nat) (now : String) :
    GossipPayload F → SwarmNode F
  | .statusUpdate threatLevel score _ _ =>
    let node := { node with peerScores := node.peerScores.insert sender score }
    if threatLevel = "critical" then node.setDeviceStatus sender .compromised nowMs else node
  | .threatAlert _ _ _ => node
  | .voteRequest roundId proposal =>
    if node.activeVotes roundId = none then
      { node with activeVotes :=
          node.activeVotes.insert roundId (.new roundId proposal sender F64.half now) }
    else node
  | .voteResponse roundId vote reason =>
    { node with activeVotes := node.activeVotes.modify roundId fun round =>
        round.castVote ⟨sender, vote, F64.one, reason⟩ }
  | .policyUpdate _ _ => node
  | .lateralMovementIntel srcHost dstHost protocol pattern riskScore mitreIds =>
    node.shareIntel
      { iocType := "lateral_movement"
        indicator := srcHost ++ "->" ++ dstHost ++ ":" ++ protocol
        confidence := riskScore
        sourceAgent := sender
        receivedAt := now
        ttlHours := 24
        metadata := .object [("dst_host", .string dstHost),
          ("mitre_ids", .array (mitreIds.map .string)), ("pattern", .string pattern),
          ("protocol", .string protocol), ("src_host", .string srcHost)] }
  | .uebaIntel entityKind entityId anomalyType riskScore description =>
    node.shareIntel
      { iocType := "ueba_anomaly"
        indicator := entityKind ++ ":" ++ entityId
        confidence := riskScore
        sourceAgent := sender
        receivedAt := now
        ttlHours := 12
        metadata := .object [("anomaly_type", .string anomalyType),
          ("description", .string description), ("entity_id", .string entityId),
          ("entity_kind", .string entityKind)] }
  | .beaconIntel targetHost destIp destDomain beaconScore isDga mitreIds =>
    node.shareIntel
      { iocType := if isDga then "dga_domain" else "beacon_c2"
        indicator := if destDomain = "" then destIp else destDomain
        confidence := beaconScore
        sourceAgent := sender
        receivedAt := now
        ttlHours := 48
        metadata := .object [("dest_domain", .string destDomain), ("dest_ip", .string destIp),
          ("is_dga", .bool isDga), ("mitre_ids", .array (mitreIds.map .string)),
          ("target_host", .string targetHost)] }
  | .threatIntelUpdate iocType indicator confidence sourceAgent ttlHours =>
    node.shareIntel
      { iocType := iocType
        indicator := indicator
        confidence := confidence
        sourceAgent := sourceAgent
        receivedAt := now
        ttlHours := ttlHours
        metadata := .null }

def receiveGossip (node : SwarmNode F) (msg : GossipMessage F) (nowMs : Nat) (now : String) :
    SwarmNode F × Bool :=
  if msg.digest ∈ node.seenDigests then (node, false)
  else
    let node := { node with seenDigests := node.seenDigests ++ [msg.digest] }
    let node := node.process msg.senderId nowMs now msg.payload
    ({ node with inbox := node.inbox ++ [msg] }, true)

/-- The id that the next proposal gets. -/
def proposalId (node : SwarmNode F) : String :=
  "vote-" ++ node.id ++ "-" ++ toString (nextSequence node.gossipSeq)

def proposeVote (node : SwarmNode F) (proposal now : String) : SwarmNode F × VoteRound F :=
  let round := VoteRound.new node.proposalId proposal node.id F64.half now
  ({ node with activeVotes := node.activeVotes.insert node.proposalId round }, round)

end SwarmNode

end Wardex.Swarm
