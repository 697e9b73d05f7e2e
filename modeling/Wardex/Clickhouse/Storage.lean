import Mathlib.Logic.Function.Basic

/-! The buffered ClickHouse storage as its callers share it. Each lock-protected section and each
remote request of a call is one step, and the steps of different callers may come in any order. -/

namespace Wardex.Clickhouse

structure StoredEvent where
  timestamp : Int
  tenantId : String
  eventClass : UInt16
  severity : UInt8
  deviceId : String
  userName : String
  processName : String
  srcIp : String
  dstIp : String
  rawJson : String
deriving DecidableEq

structure ClickHouseConfig where
  url : String
  batchSize : Nat

/-- The configuration of the source's `Default`. -/
def defaultConfig : ClickHouseConfig := ⟨"http://localhost:8123", 1000⟩

def ClickHouseConfig.isMemoryMode (config : ClickHouseConfig) : Bool :=
  "memory://".toList.isPrefixOf config.url.toList

/-- Where a caller stands in its current call. A flush that `insert_events` started carries the
number of the events inserted, which the insertion returns after it. -/
inductive Call (α : Type*)
  | returned (result : Option (Except String Nat))
  | flushDue (inserted : Nat)
  | sending (inserted : Option Nat) (snapshot : List α)
  | draining (inserted : Option Nat) (snapshot : List α)
  | counting (cutoff : Int) (bufferedPurged : Nat)
  | deleting (cutoff : Int) (bufferedPurged persisted : Nat)

/-- What the call returns when its flush has ended. -/
def flushed (inserted : Option Nat) (result : Except String Nat) : Option (Except String Nat) :=
  some (result.map fun drain => inserted.getD drain)

/-- The state that the callers share: the buffer, the counter, the remote table, and where each
caller stands. -/
structure Storage (ι α : Type*) where
  buffer : List α
  totalInserted : UInt64
  remote : List α
  calls : ι → Call α

/-- The steps of the callers; a request carries its error if it fails. -/
inductive Step (ι α : Type*)
  | insert (i : ι) (events : List α)
  | snapshot (i : ι)
  | send (i : ι) (error : Option String)
  | drain (i : ι)
  | purge (i : ι) (cutoff : Int)
  | count (i : ι) (error : Option String)
  | delete (i : ι) (error : Option String)

variable {ι α β : Type*}

/-- A storage that nothing was done with yet. -/
def Storage.new : Storage ι α := ⟨[], 0, [], fun _ => .returned none⟩

variable [DecidableEq ι] (config : ClickHouseConfig) (timestamp : α → Int)

def Storage.goto (s : Storage ι α) (i : ι) (call : Call α) : Storage ι α :=
  { s with calls := Function.update s.calls i call }

/-- `insert_events` up to the flush that it may start. -/
def Storage.insertEvents (s : Storage ι α) (i : ι) (events : List α) : Storage ι α :=
  let buffer := s.buffer ++ events
  let shouldFlush := config.batchSize ≤ buffer.length
  { s with buffer }.goto i
    (if shouldFlush then .flushDue events.length else .returned (some (.ok events.length)))

/-- `flush` up to its request: the first lock-protected section copies the buffer. -/
def Storage.takeSnapshot (s : Storage ι α) (i : ι) (inserted : Option Nat) : Storage ι α :=
  if s.buffer.length = 0 then s.goto i (.returned (flushed inserted (.ok 0)))
  else if config.isMemoryMode then s.goto i (.draining inserted s.buffer)
  else s.goto i (.sending inserted s.buffer)

/-- The `INSERT` request of `flush`. -/
def Storage.send (s : Storage ι α) (i : ι) (inserted : Option Nat) (snapshot : List α) :
    Option String → Storage ι α
  | none => { s with remote := s.remote ++ snapshot }.goto i (.draining inserted snapshot)
  | some error => s.goto i (.returned (flushed inserted (.error error)))

/-- The last section of `flush`: it drains as many events as the snapshot has. -/
def Storage.drain (s : Storage ι α) (i : ι) (inserted : Option Nat) (count : Nat) :
    Storage ι α :=
  let drain := min count s.buffer.length
  { s with
    buffer := s.buffer.drop drain
    totalInserted := s.totalInserted + UInt64.ofNat drain }.goto i
      (.returned (flushed inserted (.ok drain)))

/-- `purge_before` up to its requests. -/
def Storage.purgeBuffer (s : Storage ι α) (i : ι) (cutoff : Int) : Storage ι α :=
  let buffer := s.buffer.filter fun event => cutoff ≤ timestamp event
  let bufferedPurged := s.buffer.length - buffer.length
  { s with buffer }.goto i
    (if config.isMemoryMode then .returned (some (.ok bufferedPurged))
      else .counting cutoff bufferedPurged)

/-- The counting request of `purge_before`. -/
def Storage.countRemote (s : Storage ι α) (i : ι) (cutoff : Int) (bufferedPurged : Nat) :
    Option String → Storage ι α
  | none => s.goto i (.deleting cutoff bufferedPurged
      (s.remote.countP fun event => timestamp event < cutoff))
  | some error => s.goto i (.returned (some (.error error)))

/-- The deleting request of `purge_before`. -/
def Storage.deleteRemote (s : Storage ι α) (i : ι) (cutoff : Int)
    (bufferedPurged persisted : Nat) : Option String → Storage ι α
  | none =>
    { s with remote := s.remote.filter fun event => cutoff ≤ timestamp event }.goto i
      (.returned (some (.ok (persisted + bufferedPurged))))
  | some error => s.goto i (.returned (some (.error error)))

/-- One step of a caller; a step that the caller is not about to take changes nothing. -/
def Storage.step (s : Storage ι α) : Step ι α → Storage ι α
  | .insert i events =>
    match s.calls i with
    | .returned _ => s.insertEvents config i events
    | _ => s
  | .snapshot i =>
    match s.calls i with
    | .returned _ => s.takeSnapshot config i none
    | .flushDue inserted => s.takeSnapshot config i (some inserted)
    | _ => s
  | .send i error =>
    match s.calls i with
    | .sending inserted snapshot => s.send i inserted snapshot error
    | _ => s
  | .drain i =>
    match s.calls i with
    | .draining inserted snapshot => s.drain i inserted snapshot.length
    | _ => s
  | .purge i cutoff =>
    match s.calls i with
    | .returned _ => s.purgeBuffer config timestamp i cutoff
    | _ => s
  | .count i error =>
    match s.calls i with
    | .counting cutoff bufferedPurged => s.countRemote timestamp i cutoff bufferedPurged error
    | _ => s
  | .delete i error =>
    match s.calls i with
    | .deleting cutoff bufferedPurged persisted =>
      s.deleteRemote timestamp i cutoff bufferedPurged persisted error
    | _ => s

/-! The storage treats its events alike: it reads nothing of them but their timestamps. -/

def Call.map (f : α → β) : Call α → Call β
  | .returned result => .returned result
  | .flushDue inserted => .flushDue inserted
  | .sending inserted snapshot => .sending inserted (snapshot.map f)
  | .draining inserted snapshot => .draining inserted (snapshot.map f)
  | .counting cutoff bufferedPurged => .counting cutoff bufferedPurged
  | .deleting cutoff bufferedPurged persisted => .deleting cutoff bufferedPurged persisted

def Storage.map (f : α → β) (s : Storage ι α) : Storage ι β where
  buffer := s.buffer.map f
  totalInserted := s.totalInserted
  remote := s.remote.map f
  calls i := (s.calls i).map f

def Step.map (f : α → β) : Step ι α → Step ι β
  | .insert i events => .insert i (events.map f)
  | .snapshot i => .snapshot i
  | .send i error => .send i error
  | .drain i => .drain i
  | .purge i cutoff => .purge i cutoff
  | .count i error => .count i error
  | .delete i error => .delete i error

variable {config} {timestamp} {timestamp' : β → Int} {f : α → β}

theorem Storage.map_goto (s : Storage ι α) (i : ι) (call : Call α) :
    (s.goto i call).map f = (s.map f).goto i (call.map f) := by
  have hcalls : (fun j => ((s.goto i call).calls j).map f) =
      Function.update (fun j => (s.calls j).map f) i (call.map f) := by
    funext j
    exact Function.apply_update (fun _ => Call.map f) s.calls i call j
  simp only [goto, map] at hcalls ⊢
  rw [hcalls]

theorem Storage.map_insertEvents (s : Storage ι α) (i : ι) (events : List α) :
    (s.insertEvents config i events).map f =
      (s.map f).insertEvents config i (events.map f) := by
  rw [insertEvents, map_goto, apply_ite (Call.map f)]
  simp [insertEvents, map, Call.map]

theorem Storage.map_takeSnapshot (s : Storage ι α) (i : ι) (inserted : Option Nat) :
    (s.takeSnapshot config i inserted).map f = (s.map f).takeSnapshot config i inserted := by
  simp only [takeSnapshot, apply_ite (Storage.map f), map_goto]
  simp [map, Call.map]

theorem Storage.map_send (s : Storage ι α) (i : ι) (inserted : Option Nat) (snapshot : List α)
    (error : Option String) :
    (s.send i inserted snapshot error).map f =
      (s.map f).send i inserted (snapshot.map f) error := by
  cases error with
  | none =>
    rw [send, map_goto]
    simp [send, map, Call.map]
  | some error => exact map_goto s i _

theorem Storage.map_drain (s : Storage ι α) (i : ι) (inserted : Option Nat) (count : Nat) :
    (s.drain i inserted count).map f = (s.map f).drain i inserted count := by
  rw [drain, map_goto]
  simp [drain, map, Call.map, List.map_drop]

theorem map_filter_timestamp (hf : ∀ a, timestamp' (f a) = timestamp a) (cutoff : Int)
    (events : List α) :
    (events.filter fun a => cutoff ≤ timestamp a).map f =
      (events.map f).filter fun b => cutoff ≤ timestamp' b := by
  rw [List.filter_map]
  simp [Function.comp_def, hf]

theorem Storage.map_purgeBuffer (hf : ∀ a, timestamp' (f a) = timestamp a) (s : Storage ι α)
    (i : ι) (cutoff : Int) :
    (s.purgeBuffer config timestamp i cutoff).map f =
      (s.map f).purgeBuffer config timestamp' i cutoff := by
  rw [purgeBuffer, map_goto, apply_ite (Call.map f)]
  simp only [purgeBuffer, map, Call.map, ← map_filter_timestamp hf, List.length_map]

theorem Storage.map_countRemote (hf : ∀ a, timestamp' (f a) = timestamp a) (s : Storage ι α)
    (i : ι) (cutoff : Int) (bufferedPurged : Nat) (error : Option String) :
    (s.countRemote timestamp i cutoff bufferedPurged error).map f =
      (s.map f).countRemote timestamp' i cutoff bufferedPurged error := by
  cases error with
  | none =>
    rw [countRemote, map_goto]
    simp [countRemote, map, Call.map, List.countP_map, Function.comp_def, hf]
  | some error => exact map_goto s i _

theorem Storage.map_deleteRemote (hf : ∀ a, timestamp' (f a) = timestamp a) (s : Storage ι α)
    (i : ι) (cutoff : Int) (bufferedPurged persisted : Nat) (error : Option String) :
    (s.deleteRemote timestamp i cutoff bufferedPurged persisted error).map f =
      (s.map f).deleteRemote timestamp' i cutoff bufferedPurged persisted error := by
  cases error with
  | none =>
    rw [deleteRemote, map_goto]
    simp only [deleteRemote, map, Call.map, ← map_filter_timestamp hf]
  | some error => exact map_goto s i _

theorem Storage.map_step (hf : ∀ a, timestamp' (f a) = timestamp a) (s : Storage ι α)
    (e : Step ι α) :
    (s.step config timestamp e).map f = (s.map f).step config timestamp' (e.map f) := by
  have hcalls (i : ι) : (s.map f).calls i = (s.calls i).map f := rfl
  cases e with
  | insert i events =>
    cases hcall : s.calls i <;> simp [step, Step.map, hcalls, hcall, Call.map, map_insertEvents]
  | snapshot i =>
    cases hcall : s.calls i <;> simp [step, Step.map, hcalls, hcall, Call.map, map_takeSnapshot]
  | send i error =>
    cases hcall : s.calls i <;> simp [step, Step.map, hcalls, hcall, Call.map, map_send]
  | drain i =>
    cases hcall : s.calls i <;> simp [step, Step.map, hcalls, hcall, Call.map, map_drain]
  | purge i cutoff =>
    cases hcall : s.calls i <;>
      simp [step, Step.map, hcalls, hcall, Call.map, map_purgeBuffer hf]
  | count i error =>
    cases hcall : s.calls i <;>
      simp [step, Step.map, hcalls, hcall, Call.map, map_countRemote hf]
  | delete i error =>
    cases hcall : s.calls i <;>
      simp [step, Step.map, hcalls, hcall, Call.map, map_deleteRemote hf]

end Wardex.Clickhouse
