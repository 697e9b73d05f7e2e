import Mathlib.Logic.Function.Basic
import Wardex.Lib.Records

/-! Live response sessions: the commands that an operator may run on an agent. -/

namespace Wardex.LiveResponse

open Wardex.Lib

inductive LiveResponsePlatform where
  | linux
  | macOs
  | windows
deriving DecidableEq

inductive SessionStatus where
  | active
  | timedOut
  | closedByOperator
  | closedByPolicy
  | error
deriving DecidableEq

/-- The debug text of a status. -/
def SessionStatus.name : SessionStatus → String
  | .active => "Active"
  | .timedOut => "TimedOut"
  | .closedByOperator => "ClosedByOperator"
  | .closedByPolicy => "ClosedByPolicy"
  | .error => "Error"

inductive CommandStatus where
  | queued
  | running
  | completed
  | failed
  | denied
  | timedOut
deriving DecidableEq

structure CommandRecord where
  commandId : String
  command : String
  args : List String
  status : CommandStatus
  output : Option String
  error : Option String
  submittedAt : Nat
  completedAt : Option Nat

structure RetrievedFile where
  remotePath : String
  localPath : String
  sizeBytes : Nat
  sha256 : String
  retrievedAt : Nat

structure LiveResponseSession where
  sessionId : String
  agentId : String
  hostname : String
  platform : LiveResponsePlatform
  operator : String
  status : SessionStatus
  startedAt : Nat
  lastActivity : Nat
  timeoutSecs : Nat
  commands : List CommandRecord
  retrievedFiles : List RetrievedFile

structure AllowedCommand where
  name : String
  allowedArgs : List String

def defaultAllowedCommands : LiveResponsePlatform → List AllowedCommand
  | .linux => [
      ⟨"ps", ["-ef", "aux", "-eo"]⟩, ⟨"netstat", ["-tlnp", "-anp"]⟩, ⟨"ss", ["-tlnp", "-anp"]⟩,
      ⟨"ls", ["-la", "-lah", "-R"]⟩, ⟨"cat", []⟩, ⟨"find", ["-name", "-type", "-mtime"]⟩,
      ⟨"lsof", ["-i", "-p"]⟩, ⟨"df", ["-h"]⟩, ⟨"uptime", []⟩, ⟨"who", []⟩, ⟨"last", []⟩,
      ⟨"journalctl", ["--no-pager", "-n"]⟩, ⟨"sha256sum", []⟩, ⟨"md5sum", []⟩, ⟨"stat", []⟩,
      ⟨"ip", ["addr", "route", "link"]⟩, ⟨"systemctl", ["status", "list-units"]⟩]
  | .macOs => [
      ⟨"ps", ["-ef", "aux", "-eo"]⟩, ⟨"netstat", ["-an"]⟩, ⟨"lsof", ["-i", "-p"]⟩,
      ⟨"ls", ["-la", "-lah"]⟩, ⟨"cat", []⟩, ⟨"find", ["-name", "-type", "-mtime"]⟩,
      ⟨"df", ["-h"]⟩, ⟨"uptime", []⟩, ⟨"who", []⟩, ⟨"last", []⟩, ⟨"log", ["show", "stream"]⟩,
      ⟨"shasum", ["-a", "256"]⟩, ⟨"stat", []⟩, ⟨"ifconfig", []⟩, ⟨"launchctl", ["list"]⟩,
      ⟨"csrutil", ["status"]⟩, ⟨"spctl", ["--status"]⟩, ⟨"codesign", ["-dvvv"]⟩,
      ⟨"profiles", ["list"]⟩, ⟨"system_profiler", ["SPHardwareDataType"]⟩]
  | .windows => [
      ⟨"tasklist", ["/v"]⟩, ⟨"netstat", ["-ano"]⟩, ⟨"dir", ["/a", "/s"]⟩, ⟨"type", []⟩,
      ⟨"ipconfig", ["/all"]⟩, ⟨"systeminfo", []⟩, ⟨"whoami", ["/all"]⟩,
      ⟨"net", ["session", "share", "user"]⟩, ⟨"sc", ["query"]⟩, ⟨"wmic", ["process", "service"]⟩,
      ⟨"certutil", ["-hashfile"]⟩, ⟨"schtasks", ["/query"]⟩, ⟨"reg", ["query"]⟩,
      ⟨"wevtutil", ["qe"]⟩, ⟨"Get-Process", []⟩, ⟨"Get-NetTCPConnection", []⟩,
      ⟨"Get-Service", []⟩]

structure LiveResponseEngine where
  sessions : List LiveResponseSession
  customAllowLists : LiveResponsePlatform → Option (List AllowedCommand)
  defaultTimeoutSecs : Nat
  nextSessionId : Nat
  nextCmdId : Nat

/-- For how many whole seconds the session has been idle. -/
def LiveResponseSession.elapsedSecs (session : LiveResponseSession) (nowMs : Nat) : Nat :=
  (nowMs - session.lastActivity) / 1000

namespace LiveResponseEngine

def new (defaultTimeoutSecs : Nat) : LiveResponseEngine where
  sessions := []
  customAllowLists _ := none
  defaultTimeoutSecs := defaultTimeoutSecs
  nextSessionId := 1
  nextCmdId := 1

def setAllowedCommands (engine : LiveResponseEngine) (platform : LiveResponsePlatform)
    (commands : List AllowedCommand) : LiveResponseEngine :=
  { engine with
    customAllowLists := Function.update engine.customAllowLists platform (some commands) }

def openSession (engine : LiveResponseEngine) (agentId hostname : String)
    (platform : LiveResponsePlatform) (operator : String) (nowMs : Nat) :
    LiveResponseEngine × String :=
  let sid := "lr-" ++ toString engine.nextSessionId
  ({ engine with
    nextSessionId := engine.nextSessionId + 1
    sessions := engine.sessions ++ [{
      sessionId := sid
      agentId := agentId
      hostname := hostname
      platform := platform
      operator := operator
      status := .active
      startedAt := nowMs
      lastActivity := nowMs
      timeoutSecs := engine.defaultTimeoutSecs
      commands := []
      retrievedFiles := [] }] }, sid)

def getSession (engine : LiveResponseEngine) (sessionId : String) : Option LiveResponseSession :=
  engine.sessions.find? fun s => s.sessionId = sessionId

/-- The change of the first session with the id. -/
def modifySession (engine : LiveResponseEngine) (sessionId : String)
    (f : LiveResponseSession → LiveResponseSession) : LiveResponseEngine :=
  { engine with sessions := updateFirst (fun s => s.sessionId = sessionId) f engine.sessions }

/-- The allow-list in force for a platform. -/
def allowedFor (engine : LiveResponseEngine) (platform : LiveResponsePlatform) :
    List AllowedCommand :=
  (engine.customAllowLists platform).getD (defaultAllowedCommands platform)

/-- The id of the next command. -/
def nextCommandId (engine : LiveResponseEngine) : String := "cmd-" ++ toString engine.nextCmdId

/-- A record for the session, under the next command id. -/
def recordCommand (engine : LiveResponseEngine) (sessionId : String) (record : CommandRecord)
    (lastActivity : Nat) : LiveResponseEngine :=
  { engine with nextCmdId := engine.nextCmdId + 1 }.modifySession sessionId fun s =>
    { s with commands := s.commands ++ [record], lastActivity := lastActivity }

def submitCommand (engine : LiveResponseEngine) (sessionId command : String)
    (args : List String) (nowMs : Nat) : LiveResponseEngine × Except String String :=
  match engine.getSession sessionId with
  | none => (engine, .error "Session not found")
  | some session =>
    if session.status ≠ .active then (engine, .error ("Session is " ++ session.status.name))
    else if session.timeoutSecs < session.elapsedSecs nowMs then
      (engine.modifySession sessionId fun s => { s with status := .timedOut },
        .error "Session timed out")
    else
      let denied (error : String) : CommandRecord :=
        ⟨engine.nextCommandId, command, args, .denied, none, some error, nowMs, some nowMs⟩
      match (engine.allowedFor session.platform).find? fun a => a.name = command with
      | none =>
        (engine.recordCommand sessionId (denied "Command not in allowlist") session.lastActivity,
          .error ("Command '" ++ command ++ "' not in allowlist"))
      | some matched =>
        let badArg :=
          if matched.allowedArgs.isEmpty then none
          else args.find? fun arg => arg ∉ matched.allowedArgs
        match badArg with
        | some arg =>
          (engine.recordCommand sessionId (denied ("Argument '" ++ arg ++ "' not in allowlist"))
            session.lastActivity,
            .error ("Argument '" ++ arg ++ "' not allowed for '" ++ command ++ "'"))
        | none =>
          (engine.recordCommand sessionId
            ⟨engine.nextCommandId, command, args, .queued, none, none, nowMs, none⟩ nowMs,
            .ok engine.nextCommandId)

def completeCommand (engine : LiveResponseEngine) (sessionId commandId : String)
    (status : CommandStatus) (output error : Option String) (nowMs : Nat) :
    LiveResponseEngine × Bool :=
  match engine.getSession sessionId with
  | none => (engine, false)
  | some session =>
    if session.commands.any fun c => c.commandId = commandId then
      (engine.modifySession sessionId fun s =>
        { s with
          commands := updateFirst (fun c => c.commandId = commandId)
            (fun c => { c with
              status := status
              output := output
              error := error
              completedAt := some nowMs }) s.commands
          lastActivity := nowMs }, true)
    else (engine, false)

def recordFileRetrieval (engine : LiveResponseEngine) (sessionId remotePath localPath : String)
    (sizeBytes : Nat) (sha256 : String) (nowMs : Nat) : LiveResponseEngine × Bool :=
  match engine.getSession sessionId with
  | none => (engine, false)
  | some _ =>
    (engine.modifySession sessionId fun s =>
      { s with
        retrievedFiles := s.retrievedFiles ++ [⟨remotePath, localPath, sizeBytes, sha256, nowMs⟩]
        lastActivity := nowMs }, true)

def closeSession (engine : LiveResponseEngine) (sessionId : String) (reason : SessionStatus) :
    LiveResponseEngine × Bool :=
  match engine.getSession sessionId with
  | none => (engine, false)
  | some _ => (engine.modifySession sessionId fun s => { s with status := reason }, true)

end LiveResponseEngine

/-- An active session that has been idle for too long. -/
def LiveResponseSession.expired (session : LiveResponseSession) (nowMs : Nat) : Bool :=
  session.status = .active ∧ session.timeoutSecs < session.elapsedSecs nowMs

def LiveResponseSession.checkTimeout (session : LiveResponseSession) (nowMs : Nat) :
    LiveResponseSession :=
  if session.expired nowMs then { session with status := .timedOut } else session

def LiveResponseEngine.checkTimeouts (engine : LiveResponseEngine) (nowMs : Nat) :
    LiveResponseEngine × List String :=
  ({ engine with sessions := engine.sessions.map fun s => s.checkTimeout nowMs },
    (engine.sessions.filter fun s => s.expired nowMs).map LiveResponseSession.sessionId)

/-- A call of the engine, with its arguments. -/
inductive Call where
  | openSession (agentId hostname : String) (platform : LiveResponsePlatform) (operator : String)
      (nowMs : Nat)
  | setAllowedCommands (platform : LiveResponsePlatform) (commands : List AllowedCommand)
  | submitCommand (sessionId command : String) (args : List String) (nowMs : Nat)
  | completeCommand (sessionId commandId : String) (status : CommandStatus)
      (output error : Option String) (nowMs : Nat)
  | recordFileRetrieval (sessionId remotePath localPath : String) (sizeBytes : Nat)
      (sha256 : String) (nowMs : Nat)
  | closeSession (sessionId : String) (reason : SessionStatus)
  | checkTimeouts (nowMs : Nat)

def LiveResponseEngine.perform (engine : LiveResponseEngine) : Call → LiveResponseEngine
  | .openSession agentId hostname platform operator nowMs =>
    (engine.openSession agentId hostname platform operator nowMs).1
  | .setAllowedCommands platform commands => engine.setAllowedCommands platform commands
  | .submitCommand sessionId command args nowMs =>
    (engine.submitCommand sessionId command args nowMs).1
  | .completeCommand sessionId commandId status output error nowMs =>
    (engine.completeCommand sessionId commandId status output error nowMs).1
  | .recordFileRetrieval sessionId remotePath localPath sizeBytes sha256 nowMs =>
    (engine.recordFileRetrieval sessionId remotePath localPath sizeBytes sha256 nowMs).1
  | .closeSession sessionId reason => (engine.closeSession sessionId reason).1
  | .checkTimeouts nowMs => (engine.checkTimeouts nowMs).1

end Wardex.LiveResponse
