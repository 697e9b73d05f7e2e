import Wardex.Sigma.Rule

/-! Events and the fields that rules see of them.  Data that no rule sees is left out, and so
are the fields of the kernel events that only say where they come from. -/

namespace Wardex.Sigma

structure DeviceInfo where
  hostname : String
  osName : String

structure FileInfo where
  name : String
  path : String
  size : Option Nat

structure ProcessInfo where
  pid : Nat
  ppid : Option Nat
  name : String
  cmdLine : Option String
  file : Option FileInfo

structure UserInfo where
  name : String
  domain : Option String

structure ActorProcess where
  process : ProcessInfo
  user : Option UserInfo

structure Endpoint where
  ip : String
  port : Nat
  hostname : Option String

structure FindingInfo where
  title : String
  confidence : Nat
  severity : String

inductive OcsfData where
  | process (actor : ActorProcess) (process : ProcessInfo) (parentProcess : Option ProcessInfo)
      (device : DeviceInfo)
  | file (file : FileInfo) (actor : ActorProcess) (device : DeviceInfo)
  | network (srcEndpoint dstEndpoint : Endpoint) (protocolName : Option String)
      (bytesOut : Option Nat) (device : DeviceInfo)
  | dns (hostname queryType : String) (srcEndpoint : Endpoint) (device : DeviceInfo)
      (rcode : Option String)
  | auth (authProtocol : Option String) (user : UserInfo) (srcEndpoint : Endpoint)
      (device : DeviceInfo) (statusId : Nat) (logonType : Option String)
  | config (device : DeviceInfo) (configName : String) (prevValue newValue : Option String)
      (configType : String)
  | detection (finding : FindingInfo) (device : DeviceInfo)

structure OcsfEvent where
  classUid : Nat
  severityId : Nat
  time : String
  data : OcsfData

inductive KernelEventKind where
  | processExec (pid ppid : Nat) (exe : String) (args : List String)
  | processExit
  | fileOpen
  | fileWrite (pid : Nat) (path : String) (bytesWritten : Nat)
  | fileDelete (path : String)
  | fileRename (oldPath : String)
  | filePermissionChange
  | networkConnect (srcAddr : String) (srcPort : Nat) (dstAddr : String) (dstPort : Nat)
      (protocol : String)
  | networkAccept
  | dnsQuery (domain queryType : String)
  | registryMutate (key valueName valueData : String)
  | moduleLoad
  | driverLoad
  | namedPipeCreate
  | namedPipeConnect
  | amsiScan
  | wmiPersistence
  | tccAccess
  | gatekeeperVerdict
  | systemExtensionEvent
  | securityDenial
  | containerEvent

structure KernelEvent where
  hostname : String
  kind : KernelEventKind

def Table.insertSome {α : Type} (m : Table α) (key : String) (value : Option α) : Table α :=
  match value with
  | some v => m.insert key v
  | none => m

def eventCategory (event : OcsfEvent) : String :=
  match event.data with
  | .process .. => "process_creation"
  | .file .. => "file_event"
  | .network .. => "network_connection"
  | .dns .. => "dns_query"
  | .auth .. => "authentication"
  | .config .. => "config_change"
  | .detection .. => "detection"

def extractFields (event : OcsfEvent) : Table String :=
  let f := Table.empty
    |>.insert "class_uid" (toString event.classUid)
    |>.insert "severity_id" (toString event.severityId)
    |>.insert "time" event.time
  match event.data with
  | .process actor process parent device => f
    |>.insert "process.name" process.name
    |>.insert "process.pid" (toString process.pid)
    |>.insertSome "process.cmd_line" process.cmdLine
    |>.insertSome "process.ppid" (process.ppid.map toString)
    |>.insertSome "process.file.path" (process.file.map FileInfo.path)
    |>.insertSome "process.file.name" (process.file.map FileInfo.name)
    |>.insert "actor.process.name" actor.process.name
    |>.insertSome "actor.cmd_line" actor.process.cmdLine
    |>.insertSome "actor.user.name" (actor.user.map UserInfo.name)
    |>.insertSome "parent.name" (parent.map ProcessInfo.name)
    |>.insertSome "parent.cmd_line" (parent.bind ProcessInfo.cmdLine)
    |>.insert "device.hostname" device.hostname
    |>.insert "device.os.name" device.osName
  | .file file actor device => f
    |>.insert "file.name" file.name
    |>.insert "file.path" file.path
    |>.insertSome "file.size" (file.size.map toString)
    |>.insert "actor.process.name" actor.process.name
    |>.insert "device.hostname" device.hostname
  | .network src dst protocolName bytesOut device => f
    |>.insert "src.ip" src.ip
    |>.insert "src.port" (toString src.port)
    |>.insert "dst.ip" dst.ip
    |>.insert "dst.port" (toString dst.port)
    |>.insertSome "dst.hostname" dst.hostname
    |>.insertSome "protocol" protocolName
    |>.insertSome "bytes_out" (bytesOut.map toString)
    |>.insert "device.hostname" device.hostname
  | .dns hostname queryType src device rcode => f
    |>.insert "query.hostname" hostname
    |>.insert "query.type" queryType
    |>.insertSome "rcode" rcode
    |>.insert "src.ip" src.ip
    |>.insert "device.hostname" device.hostname
  | .auth authProtocol user src device statusId logonType => f
    |>.insert "user.name" user.name
    |>.insertSome "user.domain" user.domain
    |>.insert "status_id" (toString statusId)
    |>.insert "src.ip" src.ip
    |>.insertSome "logon_type" logonType
    |>.insertSome "auth_protocol" authProtocol
    |>.insert "device.hostname" device.hostname
  | .config device configName prevValue newValue configType => f
    |>.insert "config_name" configName
    |>.insert "config_type" configType
    |>.insertSome "new_value" newValue
    |>.insertSome "prev_value" prevValue
    |>.insert "device.hostname" device.hostname
  | .detection finding device => f
    |>.insert "finding.title" finding.title
    |>.insert "finding.severity" finding.severity
    |>.insert "finding.confidence" (toString finding.confidence)
    |>.insert "device.hostname" device.hostname

/-- What follows the last slash. -/
def baseName (path : String) : String :=
  String.ofList ((path.toList.splitOn '/').getLast?.getD path.toList)

/-- The fields of a kernel event and the category of log source it stands for. -/
def kernelEventToSigmaFields (event : KernelEvent) : Table String × String :=
  let f := Table.empty.insert "device.hostname" event.hostname
  match event.kind with
  | .processExec pid ppid exe args =>
    let cmdLine := if args = [] then exe else exe ++ " " ++ " ".intercalate args
    (f |>.insert "process.pid" (toString pid)
      |>.insert "process.ppid" (toString ppid)
      |>.insert "process.name" (baseName exe)
      |>.insert "process.file.path" exe
      |>.insert "process.file.name" (baseName exe)
      |>.insert "process.cmd_line" cmdLine
      |>.insert "actor.process.name" "unknown", "process_creation")
  | .fileWrite pid path bytesWritten =>
    (f |>.insert "file.path" path
      |>.insert "file.name" (baseName path)
      |>.insert "file.size" (toString bytesWritten)
      |>.insert "actor.process.name" (toString pid), "file_event")
  | .fileDelete path | .fileRename path =>
    (f |>.insert "file.path" path
      |>.insert "file.name" (baseName path), "file_event")
  | .networkConnect srcAddr srcPort dstAddr dstPort protocol =>
    (f |>.insert "src.ip" srcAddr
      |>.insert "src.port" (toString srcPort)
      |>.insert "dst.ip" dstAddr
      |>.insert "dst.port" (toString dstPort)
      |>.insert "protocol" protocol, "network_connection")
  | .dnsQuery domain queryType =>
    (f |>.insert "query.hostname" domain
      |>.insert "query.type" queryType, "dns_query")
  | .registryMutate key valueName valueData =>
    (f |>.insert "config_name" key
      |>.insert "config_type" "registry"
      |>.insert "new_value" (valueName ++ "=" ++ valueData), "config_change")
  | _ => (f, "detection")

def OcsfData.device : OcsfData → DeviceInfo
  | .process _ _ _ device | .file _ _ device | .network _ _ _ _ device | .dns _ _ _ device _
  | .auth _ _ _ device _ _ | .config device _ _ _ _ | .detection _ device => device

section

variable {α : Type}

@[simp] theorem Table.insert_self (m : Table α) (key : String) (value : α) :
    m.insert key value key = some value := Function.update_self ..

@[simp] theorem Table.insert_of_ne (m : Table α) {key k : String} (h : k ≠ key) (value : α) :
    m.insert key value k = m k := Function.update_of_ne h ..

end

/-- Every event says which host it comes from. -/
theorem extractFields_hostname (event : OcsfEvent) :
    extractFields event "device.hostname" = some event.data.device.hostname := by
  unfold extractFields
  cases event.data <;> simp [OcsfData.device]

theorem kernelEventToSigmaFields_hostname (event : KernelEvent) :
    (kernelEventToSigmaFields event).1 "device.hostname" = some event.hostname := by
  unfold kernelEventToSigmaFields
  cases event.kind <;> simp

end Wardex.Sigma
