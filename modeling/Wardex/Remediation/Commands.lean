import Mathlib.Algebra.Group.Nat.Defs
import Wardex.Lib.Fallible
import Wardex.Lib.Text
import Wardex.PlaybookDsl.Store

/-! Remediation actions: how evidence names the action of a rollback, the commands of an action on
each platform, and their execution.  Running one command is a parameter. -/

namespace Wardex.Remediation

open Wardex.Lib Wardex.PlaybookDsl

/-! ## Reading JSON -/

section

variable {F : Type}

def get (v : Value F) (key : String) : Option (Value F) :=
  match v with
  | .object entries => entries.lookup key
  | _ => none

def asStr : Value F → Option String
  | .string s => some s
  | _ => none

def asU64 : Value F → Option Nat
  | .int n => if 0 ≤ n then some n.toNat else none
  | _ => none

def asBool : Value F → Option Bool
  | .bool b => some b
  | _ => none

def asArray : Value F → Option (List (Value F))
  | .array items => some items
  | _ => none

/-- The trimmed string under a key, if it is there and not blank. -/
def evidenceString (evidence : Value F) (key : String) : Option String :=
  (((get evidence key).bind asStr).map trimText).filter fun s => s ≠ ""

end

/-! ## Actions -/

inductive LaunchItemType where
  | daemon
  | agent
deriving DecidableEq

inductive PersistenceMechanism where
  | systemdUnit (name : String)
  | cronJob (user pattern : String)
  | initScript (path : String)
  | launchItem (path : String) (itemType : LaunchItemType)
  | loginItem (name : String)
  | registryRunKey (hive valueName : String)
  | scheduledTask (name : String)
  | wmiSubscription (name : String)
  | windowsService (name : String)
deriving DecidableEq

inductive RemediationAction where
  | killProcess (pid : Nat) (name : String)
  | quarantineFile (path : String)
  | restoreFile (path source : String)
  | removePersistence (mechanism : PersistenceMechanism)
  | revertRegistry (key valueName originalData : String)
  | blockIp (addr : String)
  | disableAccount (username : String)
  | revokeTokens (username : String)
  | restartService (serviceName : String)
  | patchPackage (package version : String)
  | resetPermissions (path mode : String)
  | removeScheduledTask (taskName : String)
  | flushDns
  | custom (label command : String) (args : List String)
deriving DecidableEq

inductive RemediationPlatform where
  | linux
  | macOs
  | windows
deriving DecidableEq

section

variable {F : Type}

def remediationPlatformFromPayload (payload : Value F) : RemediationPlatform :=
  let platform := toAsciiLowercase (trimText (((get payload "platform").bind asStr).getD "linux"))
  if platform = "macos" ∨ platform = "darwin" then .macOs
  else if platform = "windows" ∨ platform = "win32" then .windows
  else .linux

def parseMechanism (action : Value F) : Except String PersistenceMechanism := do
  let mechanismType ← okOr (evidenceString action "mechanism_type")
    "rollback_action.remove_persistence requires mechanism_type"
  let mechanismType := toAsciiLowercase mechanismType
  if mechanismType = "systemd_unit" then
    let name ← okOr (evidenceString action "name")
      "rollback_action.remove_persistence systemd_unit requires name"
    return .systemdUnit name
  else if mechanismType = "launch_item" then
    let path ← okOr (evidenceString action "path")
      "rollback_action.remove_persistence launch_item requires path"
    let itemType := toAsciiLowercase ((evidenceString action "item_type").getD "daemon")
    return .launchItem path (if itemType = "agent" then .agent else .daemon)
  else if mechanismType = "scheduled_task" then
    let name ← okOr (evidenceString action "name")
      "rollback_action.remove_persistence scheduled_task requires name"
    return .scheduledTask name
  else if mechanismType = "windows_service" then
    let name ← okOr (evidenceString action "name")
      "rollback_action.remove_persistence windows_service requires name"
    return .windowsService name
  else if mechanismType = "registry_run_key" then
    let hive ← okOr (evidenceString action "hive")
      "rollback_action.remove_persistence registry_run_key requires hive"
    let valueName ← okOr (evidenceString action "value_name")
      "rollback_action.remove_persistence registry_run_key requires value_name"
    return .registryRunKey hive valueName
  else
    throw ("rollback_action.remove_persistence mechanism_type " ++ mechanismType ++
      " is not supported")

def parseExplicitRollbackAction (action : Value F) : Except String RemediationAction := do
  let named := (asStr action).or ((get action "type").bind asStr)
  let actionType ← okOr ((named.map trimText).filter fun s => s ≠ "")
    "rollback_action must provide a non-empty type"
  let actionType := toAsciiLowercase actionType
  if actionType = "flush_dns" then return .flushDns
  else if actionType = "restore_file" then
    let path ← okOr (evidenceString action "path") "rollback_action.restore_file requires path"
    let source ← okOr (((evidenceString action "source").or
        (evidenceString action "rollback_source")).or (evidenceString action "restore_source"))
      "rollback_action.restore_file requires source"
    return .restoreFile path source
  else if actionType = "block_ip" then
    let addr ← okOr ((evidenceString action "addr").or (evidenceString action "ip"))
      "rollback_action.block_ip requires addr"
    return .blockIp addr
  else if actionType = "restart_service" then
    let serviceName ← okOr
      ((evidenceString action "service_name").or (evidenceString action "service"))
      "rollback_action.restart_service requires service_name"
    return .restartService serviceName
  else if actionType = "kill_process" then
    let pid ← okOr (((get action "pid").bind asU64).filter fun pid => pid < 2 ^ 32 ∧ 0 < pid)
      "rollback_action.kill_process requires positive pid"
    return .killProcess pid ((evidenceString action "name").getD "process")
  else if actionType = "disable_account" then
    let username ← okOr (evidenceString action "username")
      "rollback_action.disable_account requires username"
    return .disableAccount username
  else if actionType = "remove_scheduled_task" then
    let taskName ← okOr (evidenceString action "task_name")
      "rollback_action.remove_scheduled_task requires task_name"
    return .removeScheduledTask taskName
  else if actionType = "remove_persistence" then
    let mechanism ← parseMechanism action
    return .removePersistence mechanism
  else throw ("rollback_action type " ++ actionType ++ " is not supported")

/-- `path.replace(['/', '\\'], "_").trim_start_matches('_')`. -/
def sanitizeFilename (path : String) : String :=
  String.ofList ((path.toList.map fun c => if c = '/' ∨ c = '\\' then '_' else c).dropWhile
    fun c => c = '_')

/-- What the evidence of a review says about undoing the change. -/
def rollbackActionFromEvidence (evidence : Value F) : Except String RemediationAction :=
  match get evidence "rollback_action" with
  | some action => parseExplicitRollbackAction action
  | none =>
    match (evidenceString evidence "path").or (evidenceString evidence "file") with
    | some path => .ok (.restoreFile path
        (((evidenceString evidence "rollback_source").or
          (evidenceString evidence "restore_source")).getD
            ("/var/quarantine/" ++ sanitizeFilename path)))
    | none =>
      match ((evidenceString evidence "addr").or (evidenceString evidence "ip")).or
        (evidenceString evidence "src_ip") with
      | some addr => .ok (.blockIp addr)
      | none =>
        match (evidenceString evidence "service").or (evidenceString evidence "service_name") with
        | some serviceName => .ok (.restartService serviceName)
        | none => .ok .flushDns

end

/-! ## Commands -/

structure RemediationCommand where
  program : String
  args : List String
  requiresElevation : Bool
deriving DecidableEq

def isSafeCommandArgument (value : String) : Bool :=
  let trimmed := trim value.toList
  trimmed ≠ [] && trimmed.all fun c => c ∉ ['\x00', '\n', '\x0d', '&', '|', ';']

def isSafeRegistryHive (value : String) : Bool :=
  isSafeCommandArgument value &&
    ["HKCU\\", "HKLM\\", "HKEY_CURRENT_USER\\", "HKEY_LOCAL_MACHINE\\"].any fun hive =>
      hive.toList <+: (trim value.toList).map Char.toUpper

/-- The text without the suffixes `pat` at its end. -/
def trimEndMatches (pat : List Char) : Nat → List Char → List Char
  | 0, text => text
  | fuel + 1, text =>
    if pat <:+ text then trimEndMatches pat fuel (text.take (text.length - pat.length)) else text

/-- The name of a launch item: what its path has after the last slash, without `.plist`. -/
def launchLabel (path : String) : String :=
  let last := (path.toList.splitOn '/').getLastD path.toList
  String.ofList (trimEndMatches ".plist".toList last.length last)

def persistenceRemovalCommands (mechanism : PersistenceMechanism) (platform : RemediationPlatform) :
    List RemediationCommand :=
  match mechanism, platform with
  | .systemdUnit name, .linux =>
    [⟨"systemctl", ["stop", name], true⟩, ⟨"systemctl", ["disable", name], true⟩]
  | .launchItem path _, .macOs =>
    [⟨"launchctl", ["unload", path], true⟩,
      ⟨"mv", [path, "/var/quarantine/" ++ launchLabel path ++ ".plist"], true⟩]
  | .registryRunKey hive valueName, .windows =>
    if !isSafeRegistryHive hive || !isSafeCommandArgument valueName then []
    else [⟨"reg", ["delete", hive, "/v", valueName, "/f"], true⟩]
  | .cronJob user _, .linux => [⟨"crontab", ["-l", "-u", user], false⟩]
  | .cronJob user _, .macOs => [⟨"crontab", ["-l", "-u", user], false⟩]
  | .scheduledTask name, .windows => [⟨"schtasks", ["/Delete", "/TN", name, "/F"], true⟩]
  | .wmiSubscription name, .windows => [⟨"schtasks", ["/Delete", "/TN", name, "/F"], true⟩]
  | .windowsService name, .windows =>
    [⟨"sc", ["stop", name], true⟩, ⟨"sc", ["delete", name], true⟩]
  | _, _ => []

def platformCommands (action : RemediationAction) (platform : RemediationPlatform) :
    List RemediationCommand :=
  match action, platform with
  | .killProcess pid _, .windows => [⟨"taskkill", ["/PID", toString pid, "/F"], true⟩]
  | .killProcess pid _, _ => [⟨"kill", ["-9", toString pid], true⟩]
  | .quarantineFile path, .windows =>
    [⟨"move", [path, "C:\\Quarantine\\" ++ sanitizeFilename path], true⟩]
  | .quarantineFile path, _ => [⟨"mv", [path, "/var/quarantine/" ++ sanitizeFilename path], true⟩]
  | .blockIp addr, .linux => [⟨"iptables", ["-A", "INPUT", "-s", addr, "-j", "DROP"], true⟩]
  | .blockIp addr, .macOs => [⟨"pfctl", ["-t", "blocked", "-T", "add", addr], true⟩]
  | .blockIp addr, .windows =>
    [⟨"netsh", ["advfirewall", "firewall", "add", "rule", "name=Block_" ++ addr, "dir=in",
      "action=block", "remoteip=" ++ addr], true⟩]
  | .disableAccount username, .linux => [⟨"usermod", ["-L", username], true⟩]
  | .disableAccount username, .macOs =>
    [⟨"dscl", [".", "-create", "/Users/" ++ username, "AuthenticationAuthority",
      ";DisabledUser;"], true⟩]
  | .disableAccount username, .windows => [⟨"net", ["user", username, "/active:no"], true⟩]
  | .removePersistence mechanism, _ => persistenceRemovalCommands mechanism platform
  | .flushDns, .linux => [⟨"systemd-resolve", ["--flush-caches"], false⟩]
  | .flushDns, .macOs => [⟨"dscacheutil", ["-flushcache"], false⟩]
  | .flushDns, .windows => [⟨"ipconfig", ["/flushdns"], false⟩]
  | .restoreFile path source, .windows => [⟨"copy", [source, path], true⟩]
  | .restoreFile path source, _ => [⟨"cp", [source, path], true⟩]
  | .restartService name, .linux => [⟨"systemctl", ["restart", name], true⟩]
  | .restartService name, .macOs => [⟨"launchctl", ["kickstart", "system/" ++ name], true⟩]
  | .restartService name, .windows => [⟨"sc", ["start", name], true⟩]
  | .removeScheduledTask name, .windows => [⟨"schtasks", ["/Delete", "/TN", name, "/F"], true⟩]
  | _, _ => []

/-! ## Execution -/

structure RemediationCommandExecution where
  program : String
  args : List String
  executed : Bool
  exitCode : Option Int
  stdout : String
  stderr : String
  durationMs : Nat
deriving DecidableEq

/-- What running a command gives: exit code, output and error output, or why it did not start. -/
structure CommandRun where
  result : Except String (Int × String × String)
  durationMs : Nat

def allowedExecutionPrograms : List String :=
  ["cp", "mv", "mkdir", "chmod", "kill", "taskkill", "pfctl", "iptables", "nft", "netsh", "usermod",
    "dscl", "net", "systemd-resolve", "systemctl", "launchctl", "dscacheutil", "ipconfig", "sc",
    "schtasks", "reg", "crontab", "copy", "move"]

/-- The command did not start, or did not exit with 0. -/
def RemediationCommandExecution.unsuccessful (e : RemediationCommandExecution) : Bool :=
  !e.executed || e.exitCode ≠ some 0

def executeCommand (os : RemediationCommand → CommandRun) (c : RemediationCommand) :
    RemediationCommandExecution :=
  let ran := os c
  if c.program ∉ allowedExecutionPrograms then
    ⟨c.program, c.args, false, none, "",
      "command blocked by remediation safety filter: " ++ c.program, ran.durationMs⟩
  else
    match ran.result with
    | .ok (exitCode, stdout, stderr) =>
      ⟨c.program, c.args, true, some exitCode, stdout, stderr, ran.durationMs⟩
    | .error e => ⟨c.program, c.args, false, none, "", e, ran.durationMs⟩

/-- The commands run in turn up to the first that is unsuccessful. -/
def executeCommands (os : RemediationCommand → CommandRun) :
    List RemediationCommand → List RemediationCommandExecution
  | [] => []
  | c :: rest =>
    let execution := executeCommand os c
    if execution.unsuccessful then [execution] else execution :: executeCommands os rest

end Wardex.Remediation
