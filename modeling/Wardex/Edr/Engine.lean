import Mathlib.Algebra.BigOperators.Group.List.Basic
import Mathlib.Algebra.Order.Ring.Rat
import Mathlib.Data.List.Infix
import Mathlib.Data.List.Sort
import Mathlib.Data.Rat.Floor
import Wardex.Lib.BoundedQueue
import Wardex.Lib.HashTable
import Wardex.Lib.KeyMap
import Wardex.Lib.Text

/-! The engine that decides which processes to block.  Each process has a queue of the indicators
that were received of it; old ones and those that are too many leave at the front.  Weights and
scores are rational numbers. -/

namespace Wardex.Edr

open Wardex.Lib

structure EdrBlockingConfig where
  enabled : Bool
  blockThreshold : ℚ
  alertThreshold : ℚ
  windowSize : ℕ
  windowMs : ℕ
  allowlist : List String
  ropWeight : ℚ
  heapSprayWeight : ℚ
  shellcodeWeight : ℚ
  injectionWeight : ℚ
  privescWeight : ℚ

def EdrBlockingConfig.default : EdrBlockingConfig where
  enabled := true
  blockThreshold := 15 / 2
  alertThreshold := 4
  windowSize := 500
  windowMs := 60000
  allowlist := []
  ropWeight := 3
  heapSprayWeight := 5 / 2
  shellcodeWeight := 7 / 2
  injectionWeight := 2
  privescWeight := 5 / 2

inductive MemoryAttackType
  | ropChain
  | heapSpray
  | shellcodeInjection
  | processInjection
  | stackPivot
  | useAfterFree
  deriving DecidableEq

def MemoryAttackType.debug : MemoryAttackType → String
  | .ropChain => "RopChain"
  | .heapSpray => "HeapSpray"
  | .shellcodeInjection => "ShellcodeInjection"
  | .processInjection => "ProcessInjection"
  | .stackPivot => "StackPivot"
  | .useAfterFree => "UseAfterFree"

inductive IndicatorType
  | syscallSequence (calls : List String)
  | memoryAnomaly (attackType : MemoryAttackType) (confidence : ℚ)
  | credentialAccess (target : String)
  | privilegeEscalation (fromUid toUid : ℕ) (method : String)
  | suspiciousSpawn (childPath : String) (childArgs : List String)
  | filelessExecution (regionAddr regionSize : ℕ)
  | c2Callback (destIp : String) (destPort : ℕ) (pattern : String)
  | persistenceInstall (mechanism path : String)

structure BehaviorIndicator where
  pid : ℕ
  processName : String
  ppid : ℕ
  user : String
  indicator : IndicatorType
  timestampMs : ℕ
  details : KeyMap String String

structure BlockSignal where
  category : String
  weight : ℚ
  rawScore : ℚ
  description : String

inductive BlockAction
  | allow
  | alert
  | kill
  | suspend
  | quarantine
  | isolate
  deriving DecidableEq

structure BlockingDecision where
  pid : ℕ
  processName : String
  score : ℚ
  block : Bool
  alert : Bool
  signals : List BlockSignal
  action : BlockAction
  timestampMs : ℕ

structure ProcessState where
  pid : ℕ
  processName : String
  indicators : List BehaviorIndicator
  cumulativeScore : ℚ
  lastSeenMs : ℕ

structure EdrBlockingEngine where
  config : EdrBlockingConfig
  processes : KeyMap ℕ ProcessState
  decisions : List BlockingDecision
  totalIndicators : ℕ
  totalBlocks : ℕ

/-! ## The allowlist -/

/-- The platform the engine is built for, with its notion of the last component of a path. -/
structure Platform where
  windows : Bool
  fileName : String → Option String

def normalizeProcessIdentity (platform : Platform) (value : String) : String :=
  let trimmed := trimText value
  if platform.windows then
    toAsciiLowercase (String.ofList (trimmed.toList.map fun c => if c = '\\' then '/' else c))
  else trimmed

def stripPrefix (pre text : String) : Option String :=
  if pre.toList <+: text.toList then some (String.ofList (text.toList.drop pre.toList.length))
  else none

def processMatchesAllowlist (platform : Platform) (indicator : BehaviorIndicator)
    (allowlist : List String) : Bool :=
  let process := normalizeProcessIdentity platform indicator.processName
  let fileName := (platform.fileName indicator.processName).map (normalizeProcessIdentity platform)
  let processHash := ((indicator.details "sha256").or (indicator.details "hash")).map
    fun value => toAsciiLowercase (trimText value)
  allowlist.any fun entry =>
    let entry := trimText entry
    if entry = "" then false
    else
      match stripPrefix "sha256:" entry with
      | some hash => processHash = some (toAsciiLowercase (trimText hash))
      | none =>
        let normalized := normalizeProcessIdentity platform ((stripPrefix "path:" entry).getD entry)
        normalized = process || fileName = some normalized

/-! ## Scores -/

/-- The number without decimals, as it is formatted: a half goes to the even neighbour. -/
def formatWhole (q : ℚ) : String :=
  let whole := ⌊|q|⌋
  let rest := |q| - whole
  let rounded := if rest < 1 / 2 ∨ rest = 1 / 2 ∧ whole % 2 = 0 then whole else whole + 1
  (if q < 0 then "-" else "") ++ toString rounded

def containsText (part text : String) : Bool := part.toList <:+: text.toList

def scoreIndicator (config : EdrBlockingConfig) (indicator : BehaviorIndicator) : BlockSignal :=
  match indicator.indicator with
  | .memoryAnomaly attackType confidence =>
    let weight := match attackType with
      | .ropChain => config.ropWeight
      | .heapSpray => config.heapSprayWeight
      | .shellcodeInjection => config.shellcodeWeight
      | .processInjection => config.injectionWeight
      | .stackPivot => config.ropWeight
      | .useAfterFree => config.heapSprayWeight
    { category := "memory:" ++ attackType.debug
      weight := weight
      rawScore := confidence * weight
      description :=
        s!"{attackType.debug} detected with {formatWhole (confidence * 100)}% confidence" }
  | .credentialAccess target =>
    { category := "credential_access"
      weight := config.privescWeight
      rawScore := config.privescWeight * (4 / 5)
      description := s!"Credential access: {target}" }
  | .privilegeEscalation fromUid toUid method =>
    { category := "privilege_escalation"
      weight := config.privescWeight
      rawScore := if toUid = 0 then config.privescWeight else config.privescWeight * (3 / 5)
      description := s!"Privesc {fromUid} → {toUid} via {method}" }
  | .suspiciousSpawn childPath _ =>
    { category := "suspicious_spawn"
      weight := config.injectionWeight
      rawScore := config.injectionWeight * (1 / 2)
      description := s!"Suspicious child: {childPath}" }
  | .filelessExecution _ regionSize =>
    let confidence := if regionSize > 1000000 then 9 / 10 else 3 / 5
    { category := "fileless_execution"
      weight := config.shellcodeWeight
      rawScore := config.shellcodeWeight * confidence
      description := s!"Fileless execution, region size: {regionSize}" }
  | .c2Callback destIp destPort pattern =>
    { category := "c2_callback"
      weight := config.injectionWeight * (3 / 2)
      rawScore := config.injectionWeight * (6 / 5)
      description := s!"C2 callback {destIp}:{destPort} pattern={pattern}" }
  | .persistenceInstall mechanism path =>
    { category := "persistence"
      weight := config.privescWeight
      rawScore := config.privescWeight * (7 / 10)
      description := s!"Persistence via {mechanism}: {path}" }
  | .syscallSequence calls =>
    let suspicious := calls.any fun c =>
      containsText "ptrace" c || containsText "mprotect" c || containsText "execve" c
    { category := "syscall_sequence"
      weight := 1
      rawScore := if suspicious then 3 / 2 else 3 / 10
      description := "Syscall sequence: " ++ " → ".intercalate calls }

/-- The scores by category, as they are added up. -/
def categoryScores (config : EdrBlockingConfig) (indicators : List BehaviorIndicator) :
    HashTable String ℚ :=
  indicators.foldl (fun scores ind =>
    let signal := scoreIndicator config ind
    scores.insert signal.category ((scores.lookup signal.category).getD 0 + signal.rawScore)) ∅

def computeProcessScore (config : EdrBlockingConfig) (indicators : List BehaviorIndicator) : ℚ :=
  let scores := (categoryScores config indicators).values.insertionSort (· ≥ ·)
  min (scores.take 5).sum 10

/-! ## The engine -/

namespace EdrBlockingEngine

def new (config : EdrBlockingConfig) : EdrBlockingEngine := ⟨config, KeyMap.empty, [], 0, 0⟩

/-- The state of the process that an indicator is of. -/
def stateFor (e : EdrBlockingEngine) (indicator : BehaviorIndicator) : ProcessState :=
  (e.processes indicator.pid).getD
    ⟨indicator.pid, indicator.processName, [], 0, indicator.timestampMs⟩

/-- The decision on a process with this score, if a threshold is reached. -/
def decide? (config : EdrBlockingConfig) (processName : String) (score : ℚ)
    (indicator : BehaviorIndicator) : Option BlockingDecision :=
  let shouldBlock := config.enabled && decide (config.blockThreshold ≤ score)
  let shouldAlert := decide (config.alertThreshold ≤ score)
  if shouldAlert || shouldBlock then
    some {
      pid := indicator.pid
      processName := processName
      score := score
      block := shouldBlock
      alert := shouldAlert
      signals := [scoreIndicator config indicator]
      action := if shouldBlock then if 9 ≤ score then .kill else .suspend else .alert
      timestampMs := indicator.timestampMs }
  else none

/-- The engine once a decision is recorded; the last ten thousand are kept. -/
def record (e : EdrBlockingEngine) : Option BlockingDecision → EdrBlockingEngine
  | none => e
  | some decision =>
    let decisions := e.decisions ++ [decision]
    { e with
      decisions := if decisions.length > 10000 then decisions.tail else decisions
      totalBlocks := if decision.block then e.totalBlocks + 1 else e.totalBlocks }

/-- What follows the eviction: the indicator is queued, and the process scored and judged. -/
def judge (e : EdrBlockingEngine) (indicator : BehaviorIndicator) (kept : List BehaviorIndicator) :
    EdrBlockingEngine × Option BlockingDecision :=
  let indicators := kept ++ [indicator]
  let score := computeProcessScore e.config indicators
  let state := { e.stateFor indicator with
    indicators := indicators
    lastSeenMs := indicator.timestampMs
    cumulativeScore := score }
  let decision := decide? e.config state.processName score indicator
  ({ e with processes := e.processes.insert indicator.pid state }.record decision, decision)

/-- The first indicator is older than the window of the one that comes. -/
def expired (config : EdrBlockingConfig) (x : BehaviorIndicator) (q : List BehaviorIndicator) :
    Bool :=
  q.head?.any fun i => decide (i.timestampMs < x.timestampMs - config.windowMs)

def full (config : EdrBlockingConfig) (q : List BehaviorIndicator) : Bool :=
  decide (config.windowSize ≤ q.length)

def evaluate (platform : Platform) (fuel : ℕ) (e : EdrBlockingEngine)
    (indicator : BehaviorIndicator) : Option (EdrBlockingEngine × Option BlockingDecision) :=
  let e := { e with totalIndicators := e.totalIndicators + 1 }
  if processMatchesAllowlist platform indicator e.config.allowlist then some (e, none)
  else do
    let recent ← popWhile (expired e.config indicator) fuel (e.stateFor indicator).indicators
    let kept ← popWhile (full e.config) fuel recent
    some (e.judge indicator kept)

/-- Forgets the processes that were last seen `maxAgeMs` ago or earlier. -/
def gc (e : EdrBlockingEngine) (now maxAgeMs : ℕ) : EdrBlockingEngine :=
  { e with processes := fun pid =>
      (e.processes pid).filter fun state => decide (now - state.lastSeenMs < maxAgeMs) }

end EdrBlockingEngine

end Wardex.Edr
