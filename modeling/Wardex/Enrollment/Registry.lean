import Mathlib.Algebra.Group.Nat.Defs
import Wardex.Audit.Log
import Wardex.Lib.ConstantTime
import Wardex.Lib.Records
import Wardex.Lib.SortedMap

/-! Enrollment tokens, the registry of agents and the database behind it.  SHA-256 and the calendar
are parameters; instants are nanoseconds and random bytes are inputs.  A value written to the
database is read back as it was; `M` is the type of monitoring scopes, which the registry only
stores. -/

namespace Wardex.Enrollment

open Wardex.Lib Wardex.Audit

/-- The calendar operations: RFC 3339 text, and the instant some seconds later, unless that is out
of range and panics. -/
structure Chrono where
  format : Int → String
  parse : String → Option Int
  addSeconds : Int → Int → Option Int

def defaultEnrollmentTokenTtlSecs : Nat := 60 * 60

def ctEq (a b : String) : Bool := ctEqBytes (asBytes a) (asBytes b)

structure EnrollmentToken where
  token : String
  tokenHash : String
  createdAt : String
  usesRemaining : Nat
  maxUses : Nat
  expiresAt : Option String
deriving DecidableEq

section

variable (sha256 : List UInt8 → List UInt8)

def enrollmentTokenHash (token : String) : String :=
  sha256Hex sha256 (asBytes ("wardex-enrollment-token-v1:" ++ token))

def agentTokenHash (token : String) : String :=
  sha256Hex sha256 (asBytes ("wardex-agent-token-v1:" ++ token))

end

/-- `as i64`. -/
def toI64 (n : Nat) : Int := (n : Int).bmod (2 ^ 64)

namespace EnrollmentToken

section

variable (sha256 : List UInt8 → List UInt8) (chrono : Chrono)

def new (maxUses : Nat) (bytes : List UInt8) (now : Int) : Option EnrollmentToken := do
  let token := hexEncode bytes
  let expires ← chrono.addSeconds now defaultEnrollmentTokenTtlSecs
  return {
    tokenHash := enrollmentTokenHash sha256 token
    token := token
    createdAt := chrono.format now
    usesRemaining := maxUses
    maxUses := maxUses
    expiresAt := some (chrono.format expires) }

def newWithTtl (maxUses ttlSecs : Nat) (bytes : List UInt8) (now : Int) :
    Option EnrollmentToken := do
  let token ← new sha256 chrono maxUses bytes now
  let expires ← chrono.addSeconds now (toI64 ttlSecs)
  return { token with expiresAt := some (chrono.format expires) }

def matchesPresented (t : EnrollmentToken) (presented : String) : Bool :=
  let expectedHash :=
    if t.tokenHash = "" then enrollmentTokenHash sha256 t.token else t.tokenHash
  ctEq expectedHash (enrollmentTokenHash sha256 presented)

def isValid (t : EnrollmentToken) (now : Int) : Bool :=
  if t.usesRemaining = 0 then false
  else
    match t.expiresAt with
    | some exp =>
      match chrono.parse exp with
      | some dt => now < dt
      | none => false
    | none => true

end

def consume (t : EnrollmentToken) : EnrollmentToken × Bool :=
  if t.usesRemaining > 0 then ({ t with usesRemaining := t.usesRemaining - 1 }, true)
  else (t, false)

/-- The hash of a token whose raw text is still there. -/
def normalizeLoadedToken (sha256 : List UInt8 → List UInt8) (t : EnrollmentToken) :
    EnrollmentToken :=
  if t.tokenHash = "" ∧ t.token ≠ "" then
    { t with tokenHash := enrollmentTokenHash sha256 t.token }
  else t

/-- What `save` writes for a token. -/
def forStorage (sha256 : List UInt8 → List UInt8) (t : EnrollmentToken) : EnrollmentToken :=
  { t.normalizeLoadedToken sha256 with token := "" }

end EnrollmentToken

/-- The calendar at the start of 1970 and an hour later. -/
def firstHour : Chrono where
  format t := if t = 3600000000000 then "1970-01-01T01:00:00+00:00" else "1970-01-01T00:00:00+00:00"
  parse s :=
    if s = "1970-01-01T01:00:00+00:00" then some 3600000000000
    else if s = "1970-01-01T00:00:00+00:00" then some 0
    else none
  addSeconds now secs := some (now + secs * 1000000000)

/-! ## The registry -/

structure AgentHealth where
  pendingAlerts : Nat
  telemetryQueueDepth : Nat
  updateState : Option String
  updateTargetVersion : Option String
  lastUpdateError : Option String
  lastUpdateAt : Option String

def AgentHealth.default : AgentHealth := ⟨0, 0, none, none, none, none⟩

inductive AgentStatus where
  | online
  | stale
  | offline
  | deregistered
deriving DecidableEq

structure AgentIdentity (M : Type) where
  id : String
  hostname : String
  platform : String
  version : String
  enrolledAt : String
  lastSeen : String
  status : AgentStatus
  labels : List (String × String)
  agentTokenHash : String
  health : AgentHealth
  monitorScope : Option M

structure EnrollRequest where
  enrollmentToken : String
  hostname : String
  platform : String
  version : String
  labels : Option (List (String × String))

structure EnrollResponse where
  agentId : String
  agentToken : Option String
  serverVersion : String
  heartbeatIntervalSecs : Nat
  policyPollIntervalSecs : Nat

/-- The rows of the two tables, and the JSON store of an earlier version, if there is one. -/
structure Storage (M : Type) where
  agentRecords : List (AgentIdentity M)
  enrollmentTokens : List EnrollmentToken
  legacy : Option (List (String × AgentIdentity M) × List EnrollmentToken)

/-- The agents are the entries of a map. -/
structure AgentRegistry (M : Type) where
  agents : List (String × AgentIdentity M)
  tokens : List EnrollmentToken
  heartbeatInterval : Nat
  stalenessMultiplier : Nat
  storage : Storage M

def serverVersion : String := "1.0.30"

variable {M : Type}

namespace AgentRegistry

section

variable (sha256 : List UInt8 → List UInt8) (chrono : Chrono)

def save (reg : AgentRegistry M) : AgentRegistry M :=
  let storage : Storage M :=
    { reg.storage with
      agentRecords := reg.agents.map Prod.snd
      enrollmentTokens := reg.tokens.map (EnrollmentToken.forStorage sha256) }
  { reg with storage := storage }

def load (reg : AgentRegistry M) : AgentRegistry M :=
  let agents := ofEntries (reg.storage.agentRecords.map fun a => (a.id, a))
  let tokens := reg.storage.enrollmentTokens.map (EnrollmentToken.normalizeLoadedToken sha256)
  if agents ≠ [] ∨ tokens ≠ [] then { reg with agents := agents, tokens := tokens }
  else
    match reg.storage.legacy with
    | some (agents, tokens) =>
      if agents ≠ [] ∨ tokens ≠ [] then
        let migrated := save sha256 { reg with
          agents := agents
          tokens := tokens.map (EnrollmentToken.normalizeLoadedToken sha256) }
        { migrated with storage := { migrated.storage with legacy := none } }
      else reg
    | none => reg

/-- The registry that a new process builds over the storage. -/
def new (storage : Storage M) : AgentRegistry M :=
  load sha256
    { agents := []
      tokens := []
      heartbeatInterval := 30
      stalenessMultiplier := 3
      storage := storage }

/-- What `create_token` and `create_token_with_ttl` do with the token they made. -/
def addToken (reg : AgentRegistry M) (token : EnrollmentToken) :
    AgentRegistry M × EnrollmentToken :=
  (save sha256 { reg with tokens := reg.tokens ++ [token] }, token)

def createToken (reg : AgentRegistry M) (maxUses : Nat) (bytes : List UInt8) (now : Int) :
    Option (AgentRegistry M × EnrollmentToken) :=
  (EnrollmentToken.new sha256 chrono maxUses bytes now).map (reg.addToken sha256)

def createTokenWithTtl (reg : AgentRegistry M) (maxUses ttlSecs : Nat) (bytes : List UInt8)
    (now : Int) : Option (AgentRegistry M × EnrollmentToken) :=
  (EnrollmentToken.newWithTtl sha256 chrono maxUses ttlSecs bytes now).map (reg.addToken sha256)

def agentId (bytes : List UInt8) : String := "agent-" ++ hexEncode bytes

/-- The token that `enroll` looks for. -/
def accepts (presented : String) (now : Int) (t : EnrollmentToken) : Bool :=
  t.matchesPresented sha256 presented && t.isValid chrono now

def enroll (reg : AgentRegistry M) (req : EnrollRequest) (idBytes tokenBytes : List UInt8)
    (now : Int) : AgentRegistry M × Except String EnrollResponse :=
  match reg.tokens.find? (accepts sha256 chrono req.enrollmentToken now) with
  | none => (reg, .error "invalid or expired enrollment token")
  | some _ =>
    let tokens := updateFirst (accepts sha256 chrono req.enrollmentToken now)
      (fun t => t.consume.1) reg.tokens
    let id := agentId idBytes
    let agentToken := hexEncode tokenBytes
    let now := chrono.format now
    let identity : AgentIdentity M :=
      { id := id
        hostname := req.hostname
        platform := req.platform
        version := req.version
        enrolledAt := now
        lastSeen := now
        status := .online
        labels := req.labels.getD []
        agentTokenHash := agentTokenHash sha256 agentToken
        health := .default
        monitorScope := none }
    (save sha256 { reg with tokens := tokens, agents := insertKey reg.agents id identity },
      .ok
        { agentId := id
          agentToken := some agentToken
          serverVersion := serverVersion
          heartbeatIntervalSecs := reg.heartbeatInterval
          policyPollIntervalSecs := 60 })

/-- What `heartbeat`, `deregister` and `set_monitor_scope` do with the agent they name. -/
def updateAgent (reg : AgentRegistry M) (id : String) (f : AgentIdentity M → AgentIdentity M) :
    AgentRegistry M × Except String Unit :=
  match reg.agents.lookup id with
  | none => (reg, .error "unknown agent")
  | some _ =>
    let agents := updateFirst (fun e => e.1 = id) (fun e => (e.1, f e.2)) reg.agents
    (save sha256 { reg with agents := agents }, .ok ())

def heartbeat (reg : AgentRegistry M) (id version : String) (health : Option AgentHealth)
    (now : Int) : AgentRegistry M × Except String Unit :=
  reg.updateAgent sha256 id fun agent =>
    { agent with
      lastSeen := chrono.format now
      version := version
      status := .online
      health := health.getD agent.health }

def deregister (reg : AgentRegistry M) (id : String) : AgentRegistry M × Except String Unit :=
  reg.updateAgent sha256 id fun agent => { agent with status := .deregistered }

def setMonitorScope (reg : AgentRegistry M) (id : String) (scope : Option M) :
    AgentRegistry M × Except String Unit :=
  reg.updateAgent sha256 id fun agent => { agent with monitorScope := scope }

/-- The loop body of `refresh_staleness`. -/
def refreshAgent (thresholdSecs : Nat) (now : Int) (agent : AgentIdentity M) : AgentIdentity M :=
  if agent.status = .deregistered then agent
  else
    match chrono.parse agent.lastSeen with
    | some last =>
      let elapsed := (now - last).tdiv 1000000000
      { agent with status := if elapsed > toI64 thresholdSecs then .stale else .online }
    | none => agent

def refreshStaleness (reg : AgentRegistry M) (now : Int) : AgentRegistry M :=
  let thresholdSecs := reg.heartbeatInterval * reg.stalenessMultiplier % 2 ^ 64
  { reg with agents := reg.agents.map fun e => (e.1, refreshAgent chrono thresholdSecs now e.2) }

end

end AgentRegistry

end Wardex.Enrollment
