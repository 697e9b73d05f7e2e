import Mathlib.Data.List.Nodup
import Wardex.Clickhouse.Storage
import Wardex.Lib.Run
import Wardex.Lib.BoundedQueue

/-! Whether the buffer loses or duplicates events. The events are followed one by one: each event
that `insert_events` buffers is numbered, and the runs are those of the storage of numbered
events. -/

namespace Wardex.Clickhouse

open Wardex.Lib

/-- An event that was buffered, with its number. -/
abbrev Instance := StoredEvent × ℕ

def Instance.timestamp (x : Instance) : Int := x.1.timestamp

variable {ι α β : Type*}

def Step.number (n : ℕ) : Step ι α → Step ι (α × ℕ)
  | .insert i events => .insert i (events.zipIdx n)
  | .snapshot i => .snapshot i
  | .send i error => .send i error
  | .drain i => .drain i
  | .purge i cutoff => .purge i cutoff
  | .count i error => .count i error
  | .delete i error => .delete i error

/-- The snapshot of the flush that the caller is in. -/
def Call.snapshot? : Call α → Option (List α)
  | .sending _ snapshot => some snapshot
  | .draining _ snapshot => some snapshot
  | _ => none

/-- The snapshot of the caller's flush, once its request has succeeded. -/
def Call.delivered? : Call α → Option (List α)
  | .draining _ snapshot => some snapshot
  | _ => none

def Call.cutoff? : Call α → Option Int
  | .counting cutoff _ => some cutoff
  | .deleting cutoff _ _ => some cutoff
  | _ => none

/-- The events that a step puts into the buffer. -/
def Storage.buffers (s : Storage ι α) : Step ι β → List β
  | .insert i events =>
    match s.calls i with
    | .returned _ => events
    | _ => []
  | _ => []

/-- The events that a step sends to the remote table. -/
def Storage.sends (s : Storage ι α) : Step ι β → List α
  | .send i none =>
    match s.calls i with
    | .sending _ snapshot => snapshot
    | _ => []
  | _ => []

/-- The cutoff with which a step starts a purge. -/
def Storage.purges (s : Storage ι α) : Step ι β → List Int
  | .purge i cutoff =>
    match s.calls i with
    | .returned _ => [cutoff]
    | _ => []
  | _ => []

/-- The storage of numbered events together with what happened to it so far: the events buffered,
the events sent and the cutoffs of the purges. -/
structure Observed (ι : Type*) where
  storage : Storage ι Instance
  inserted : List StoredEvent
  sent : List Instance
  cutoffs : List Int

def Observed.new : Observed ι := ⟨Storage.new, [], [], []⟩

def Observed.buffered (o : Observed ι) : List Instance := o.inserted.zipIdx

/-- No purge so far had a cutoff later than the event. -/
def Observed.Young (o : Observed ι) (x : Instance) : Prop :=
  ∀ cutoff ∈ o.cutoffs, cutoff ≤ x.timestamp

/-- No caller is in a flush. -/
def Observed.Quiet (o : Observed ι) : Prop := ∀ i, (o.storage.calls i).snapshot? = none

variable [DecidableEq ι] (config : ClickHouseConfig)

def Observed.step (o : Observed ι) (e : Step ι StoredEvent) : Observed ι where
  storage := o.storage.step config Instance.timestamp (e.number o.inserted.length)
  inserted := o.inserted ++ o.storage.buffers e
  sent := o.sent ++ o.storage.sends e
  cutoffs := o.cutoffs ++ o.storage.purges e

/-- Every event that is buffered and not older than a cutoff is in the buffer or in the remote
table, was sent at most once, and is stored once while no flush is in progress. -/
def Observed.Kept (o : Observed ι) : Prop :=
  ∀ x ∈ o.buffered, o.Young x →
    (x ∈ o.storage.buffer ∨ x ∈ o.storage.remote) ∧ o.sent.count x ≤ 1 ∧
      (o.Quiet → (o.storage.buffer ++ o.storage.remote).count x = 1)

/-- A request of a flush that succeeds finds none of its young events in the remote table, and a
flush that drains finds there every young event that it drops. -/
def Observed.Undisturbed (o : Observed ι) : Step ι StoredEvent → Prop
  | .send i none => ∀ inserted snapshot, o.storage.calls i = .sending inserted snapshot →
      ∀ x ∈ snapshot, o.Young x → x ∉ o.storage.remote
  | .drain i => ∀ inserted snapshot, o.storage.calls i = .draining inserted snapshot →
      ∀ x ∈ o.storage.buffer.take snapshot.length, o.Young x → x ∈ o.storage.remote
  | _ => True

/-- What a step can do to the storage and to what is known of it. -/
inductive Effect (o : Observed ι) : Step ι StoredEvent → Observed ι → Prop
  | stays (e : Step ι StoredEvent) : Effect o e o
  | moved (e : Step ι StoredEvent) (i : ι) (call : Call Instance) (hflight : call.snapshot? = none)
      (hcutoff : ∀ c ∈ call.cutoff?, c ∈ (o.storage.calls i).cutoff?)
      (hdelivered : (o.storage.calls i).delivered? = none) :
      Effect o e { o with storage := o.storage.goto i call }
  | inserted (i : ι) (events : List StoredEvent) (call : Call Instance)
      (hflight : call.snapshot? = none) (hcutoff : call.cutoff? = none)
      (hdelivered : (o.storage.calls i).delivered? = none) :
      Effect o (.insert i events)
        { o with
          storage := { o.storage with
            buffer := o.storage.buffer ++ events.zipIdx o.inserted.length }.goto i call
          inserted := o.inserted ++ events }
  | begun (i : ι) (call : Call Instance) (hflight : call.snapshot? = some o.storage.buffer)
      (hcutoff : call.cutoff? = none) (hdelivered : (o.storage.calls i).delivered? = none) :
      Effect o (.snapshot i) { o with storage := o.storage.goto i call }
  | sent (i : ι) (inserted : Option ℕ) (snapshot : List Instance)
      (hcall : o.storage.calls i = .sending inserted snapshot) :
      Effect o (.send i none)
        { o with
          storage := { o.storage with remote := o.storage.remote ++ snapshot }.goto i
            (.draining inserted snapshot)
          sent := o.sent ++ snapshot }
  | drained (i : ι) (inserted : Option ℕ) (snapshot : List Instance)
      (hcall : o.storage.calls i = .draining inserted snapshot) (total : UInt64)
      (result : Option (Except String ℕ)) :
      Effect o (.drain i)
        { o with
          storage := { o.storage with
            buffer := o.storage.buffer.drop snapshot.length
            totalInserted := total }.goto i (.returned result) }
  | purged (i : ι) (cutoff : Int) (call : Call Instance) (hflight : call.snapshot? = none)
      (hcutoff : ∀ c ∈ call.cutoff?, c = cutoff)
      (hdelivered : (o.storage.calls i).delivered? = none) :
      Effect o (.purge i cutoff)
        { o with
          storage := { o.storage with
            buffer := o.storage.buffer.filter fun x : Instance => cutoff ≤ x.timestamp }.goto i call
          cutoffs := o.cutoffs ++ [cutoff] }
  | deleted (i : ι) (cutoff : Int) (hcall : (o.storage.calls i).cutoff? = some cutoff)
      (hdelivered : (o.storage.calls i).delivered? = none) (result : Option (Except String ℕ)) :
      Effect o (.delete i none)
        { o with
          storage := { o.storage with
            remote := o.storage.remote.filter fun x : Instance => cutoff ≤ x.timestamp }.goto i
              (.returned result) }

variable {config} {o : Observed ι}

omit [DecidableEq ι] in
theorem Step.map_number (e : Step ι α) (n : ℕ) : (e.number n).map Prod.fst = e := by
  cases e <;> simp [number, map]

/-- Without the numbers the run is one of the storage alone. -/
theorem Observed.map_run (o : Observed ι) (steps : List (Step ι StoredEvent)) :
    (run (Observed.step config) o steps).storage.map Prod.fst =
      run (Storage.step config StoredEvent.timestamp) (o.storage.map Prod.fst) steps := by
  induction steps generalizing o with
  | nil => rfl
  | cons e steps ih =>
    have hstep : (o.step config e).storage.map Prod.fst =
        (o.storage.map Prod.fst).step config StoredEvent.timestamp
          ((e.number o.inserted.length).map Prod.fst) :=
      Storage.map_step (fun _ => rfl) _ _
    rw [Step.map_number] at hstep
    rw [run_cons, run_cons, ih, hstep]

theorem drop_min_length {α : Type*} (l : List α) (n : ℕ) :
    l.drop (min n l.length) = l.drop n := by
  rcases le_total n l.length with h | h
  · rw [min_eq_left h]
  · rw [min_eq_right h, List.drop_length, List.drop_of_length_le h]

theorem Observed.step_of_stays (e : Step ι StoredEvent)
    (hstep : o.storage.step config Instance.timestamp (e.number o.inserted.length) = o.storage)
    (hbuffers : o.storage.buffers e = []) (hsends : o.storage.sends e = [])
    (hpurges : o.storage.purges e = []) : o.step config e = o := by
  unfold Observed.step
  rw [hstep, hbuffers, hsends, hpurges, List.append_nil, List.append_nil, List.append_nil]

theorem Observed.effect_takeSnapshot (i : ι) (inserted : Option ℕ)
    (hdelivered : (o.storage.calls i).delivered? = none) :
    Effect o (.snapshot i) { o with storage := o.storage.takeSnapshot config i inserted } := by
  unfold Storage.takeSnapshot
  split
  · exact Effect.moved _ i _ rfl (by simp [Call.cutoff?]) hdelivered
  · split
    · exact Effect.begun i _ rfl rfl hdelivered
    · exact Effect.begun i _ rfl rfl hdelivered

section Effects

attribute [local simp] Step.number Storage.step Storage.buffers Storage.sends Storage.purges

theorem Observed.effect_insert (o : Observed ι) (i : ι) (events : List StoredEvent) :
    Effect o (.insert i events) (o.step config (.insert i events)) := by
  cases hcall : o.storage.calls i with
  | returned r =>
    have hstep : o.step config (.insert i events) = { o with
        storage := { o.storage with
          buffer := o.storage.buffer ++ events.zipIdx o.inserted.length }.goto i
            (if config.batchSize ≤ (o.storage.buffer ++ events.zipIdx o.inserted.length).length
              then .flushDue (events.zipIdx o.inserted.length).length
              else .returned (some (.ok (events.zipIdx o.inserted.length).length)))
        inserted := o.inserted ++ events } := by
      simp [step, hcall, Storage.insertEvents]
    rw [hstep]
    apply Effect.inserted
    · split <;> rfl
    · split <;> rfl
    · rw [hcall]; rfl
  | _ =>
    rw [step_of_stays] <;> simp [hcall, Effect.stays]

theorem Observed.effect_snapshot (o : Observed ι) (i : ι) :
    Effect o (.snapshot i) (o.step config (.snapshot i)) := by
  cases hcall : o.storage.calls i with
  | returned r =>
    have hstep : o.step config (.snapshot i) =
        { o with storage := o.storage.takeSnapshot config i none } := by
      simp [step, hcall]
    rw [hstep]
    exact effect_takeSnapshot i none (by rw [hcall]; rfl)
  | flushDue inserted =>
    have hstep : o.step config (.snapshot i) =
        { o with storage := o.storage.takeSnapshot config i (some inserted) } := by
      simp [step, hcall]
    rw [hstep]
    exact effect_takeSnapshot i (some inserted) (by rw [hcall]; rfl)
  | _ =>
    rw [step_of_stays] <;> simp [hcall, Effect.stays]

theorem Observed.effect_send (o : Observed ι) (i : ι) (error : Option String) :
    Effect o (.send i error) (o.step config (.send i error)) := by
  cases hcall : o.storage.calls i with
  | sending inserted snapshot =>
    cases error with
    | none =>
      have hstep : o.step config (.send i none) = { o with
          storage := { o.storage with remote := o.storage.remote ++ snapshot }.goto i
            (.draining inserted snapshot)
          sent := o.sent ++ snapshot } := by
        simp [step, hcall, Storage.send]
      rw [hstep]
      exact Effect.sent i inserted snapshot hcall
    | some error =>
      have hstep : o.step config (.send i (some error)) = { o with
          storage := o.storage.goto i (.returned (flushed inserted (.error error))) } := by
        simp [step, hcall, Storage.send]
      rw [hstep]
      exact Effect.moved _ i _ rfl (by simp [Call.cutoff?]) (by rw [hcall]; rfl)
  | _ =>
    rw [step_of_stays] <;> cases error <;> simp [hcall, Effect.stays]

theorem Observed.effect_drain (o : Observed ι) (i : ι) :
    Effect o (.drain i) (o.step config (.drain i)) := by
  cases hcall : o.storage.calls i with
  | draining inserted snapshot =>
    have hstep : o.step config (.drain i) =
        { o with storage := o.storage.drain i inserted snapshot.length } := by
      simp [step, hcall]
    rw [hstep, Storage.drain, drop_min_length]
    exact Effect.drained i inserted snapshot hcall _ _
  | _ =>
    rw [step_of_stays] <;> simp [hcall, Effect.stays]

theorem Observed.effect_purge (o : Observed ι) (i : ι) (cutoff : Int) :
    Effect o (.purge i cutoff) (o.step config (.purge i cutoff)) := by
  cases hcall : o.storage.calls i with
  | returned r =>
    have hstep : o.step config (.purge i cutoff) = { o with
        storage := o.storage.purgeBuffer config Instance.timestamp i cutoff
        cutoffs := o.cutoffs ++ [cutoff] } := by
      simp [step, hcall]
    rw [hstep]
    apply Effect.purged
    · split <;> rfl
    · split <;> simp [Call.cutoff?]
    · rw [hcall]; rfl
  | _ =>
    rw [step_of_stays] <;> simp [hcall, Effect.stays]

theorem Observed.effect_count (o : Observed ι) (i : ι) (error : Option String) :
    Effect o (.count i error) (o.step config (.count i error)) := by
  cases hcall : o.storage.calls i with
  | counting cutoff bufferedPurged =>
    have hstep : o.step config (.count i error) = { o with
        storage := o.storage.countRemote Instance.timestamp i cutoff bufferedPurged error } := by
      simp [step, hcall]
    rw [hstep]
    cases error with
    | none => exact Effect.moved _ i _ rfl (by simp [Call.cutoff?, hcall]) (by rw [hcall]; rfl)
    | some error => exact Effect.moved _ i _ rfl (by simp [Call.cutoff?]) (by rw [hcall]; rfl)
  | _ =>
    rw [step_of_stays] <;> simp [hcall, Effect.stays]

theorem Observed.effect_delete (o : Observed ι) (i : ι) (error : Option String) :
    Effect o (.delete i error) (o.step config (.delete i error)) := by
  cases hcall : o.storage.calls i with
  | deleting cutoff bufferedPurged persisted =>
    have hstep : o.step config (.delete i error) = { o with
        storage := o.storage.deleteRemote Instance.timestamp i cutoff bufferedPurged persisted
          error } := by
      simp [step, hcall]
    rw [hstep]
    cases error with
    | none => exact Effect.deleted i cutoff (by rw [hcall]; rfl) (by rw [hcall]; rfl) _
    | some error => exact Effect.moved _ i _ rfl (by simp [Call.cutoff?]) (by rw [hcall]; rfl)
  | _ =>
    rw [step_of_stays] <;> simp [hcall, Effect.stays]

end Effects

/-- The effect of every step. -/
theorem Observed.step_effect (o : Observed ι) (e : Step ι StoredEvent) :
    Effect o e (o.step config e) := by
  cases e with
  | insert i events => exact o.effect_insert i events
  | snapshot i => exact o.effect_snapshot i
  | send i error => exact o.effect_send i error
  | drain i => exact o.effect_drain i
  | purge i cutoff => exact o.effect_purge i cutoff
  | count i error => exact o.effect_count i error
  | delete i error => exact o.effect_delete i error

/-! ### What every step keeps -/

/-- The snapshot of a caller's flush is of buffered events, what is left of it in the buffer stands
in front, and the cutoff of a caller's purge is one of those noted. -/
structure Call.Tracked (buffered buffer : List Instance) (cutoffs : List Int)
    (call : Call Instance) : Prop where
  flight : ∀ snapshot ∈ call.snapshot?, snapshot.Sublist buffered ∧ Remains snapshot buffer
  cutoff : ∀ cutoff ∈ call.cutoff?, cutoff ∈ cutoffs

/-- The lists of the storage hold only events that were buffered. -/
structure Observed.Tracked (o : Observed ι) : Prop where
  buffer : o.storage.buffer.Sublist o.buffered
  remote : ∀ x ∈ o.storage.remote, x ∈ o.sent
  sent : ∀ x ∈ o.sent, x ∈ o.buffered
  calls : ∀ i, (o.storage.calls i).Tracked o.buffered o.storage.buffer o.cutoffs

theorem Call.Tracked.of_snapshot_eq_none {buffered buffer : List Instance} {cutoffs : List Int}
    {call : Call Instance} (hflight : call.snapshot? = none)
    (hcutoff : ∀ cutoff ∈ call.cutoff?, cutoff ∈ cutoffs) :
    call.Tracked buffered buffer cutoffs :=
  ⟨by simp [hflight], hcutoff⟩

/-- A condition on all calls, when one of them moves on. -/
theorem Storage.forall_goto (Q : Call α → Prop) {s : Storage ι α} {i : ι} {call : Call α}
    (h : ∀ j, Q (s.calls j)) (hcall : Q call) (j : ι) : Q ((s.goto i call).calls j) := by
  by_cases hj : j = i
  · subst hj
    simpa [goto] using hcall
  · simpa [goto, hj] using h j

theorem notMem_buffered {inserted events : List StoredEvent} {x : Instance}
    (hx : x ∈ events.zipIdx inserted.length) : x ∉ inserted.zipIdx := by
  intro hold
  have hlt : x.2 < inserted.length + 0 := List.snd_lt_of_mem_zipIdx hold
  have hle : inserted.length ≤ x.2 := List.le_snd_of_mem_zipIdx hx
  omega

theorem zipIdx_append_events (inserted events : List StoredEvent) :
    (inserted ++ events).zipIdx = inserted.zipIdx ++ events.zipIdx inserted.length := by
  rw [List.zipIdx_append, Nat.zero_add]

omit [DecidableEq ι] in
theorem Observed.nodup_buffered (o : Observed ι) : o.buffered.Nodup := by
  have hsnd : (o.buffered.map Prod.snd).Nodup := by
    rw [buffered, List.zipIdx_map_snd]
    exact List.nodup_range'
  exact List.Nodup.of_map Prod.snd hsnd

omit [DecidableEq ι] in
theorem Observed.tracked_new : (new : Observed ι).Tracked where
  buffer := List.Sublist.refl []
  remote := by simp [new, Storage.new]
  sent := by simp [new]
  calls _ := Call.Tracked.of_snapshot_eq_none rfl (by simp [new, Storage.new, Call.cutoff?])

theorem Observed.Tracked.step {e : Step ι StoredEvent} {o' : Observed ι} (h : o.Tracked)
    (he : Effect o e o') : o'.Tracked := by
  cases he with
  | stays => exact h
  | moved _ i call hflight hcutoff _ =>
    refine ⟨h.buffer, h.remote, h.sent, ?_⟩
    apply Storage.forall_goto (Call.Tracked _ _ _) h.calls
    exact Call.Tracked.of_snapshot_eq_none hflight fun c hc => (h.calls i).cutoff c (hcutoff c hc)
  | inserted i events call hflight hcutoff _ =>
    have hbuffered := zipIdx_append_events o.inserted events
    have hprefix : o.buffered.Sublist (o.inserted ++ events).zipIdx := by
      rw [hbuffered]
      exact List.sublist_append_left _ _
    refine ⟨?_, h.remote, fun x hx => hprefix.subset (h.sent x hx), ?_⟩
    · show (o.storage.buffer ++ events.zipIdx o.inserted.length).Sublist _
      rw [buffered, hbuffered]
      exact h.buffer.append_right _
    · apply Storage.forall_goto (Call.Tracked _ _ _)
      · intro j
        refine ⟨fun snapshot hs => ?_, (h.calls j).cutoff⟩
        obtain ⟨hsub, hremains⟩ := (h.calls j).flight snapshot hs
        refine ⟨hsub.trans hprefix, hremains.append ?_⟩
        exact fun x hx hmem => notMem_buffered hx (hsub.subset hmem)
      · exact Call.Tracked.of_snapshot_eq_none hflight (by simp [hcutoff])
  | begun i call hflight hcutoff _ =>
    refine ⟨h.buffer, h.remote, h.sent, ?_⟩
    apply Storage.forall_goto (Call.Tracked _ _ _) h.calls
    refine ⟨fun snapshot hs => ?_, by simp [hcutoff]⟩
    obtain rfl : o.storage.buffer = snapshot := by simpa [hflight] using hs
    exact ⟨h.buffer, Remains.refl _⟩
  | sent i inserted snapshot hcall =>
    have hflight := (h.calls i).flight snapshot (by simp [hcall, Call.snapshot?])
    refine ⟨h.buffer, ?_, ?_, ?_⟩
    · intro x hx
      exact List.mem_append.mpr ((List.mem_append.mp hx).imp_left (h.remote x))
    · intro x hx
      exact (List.mem_append.mp hx).elim (h.sent x) fun hmem => hflight.1.subset hmem
    · apply Storage.forall_goto (Call.Tracked _ _ _) h.calls
      refine ⟨fun s hs => ?_, by simp [Call.cutoff?]⟩
      obtain rfl : snapshot = s := by simpa [Call.snapshot?] using hs
      exact hflight
  | drained i inserted snapshot hcall total result =>
    refine ⟨(List.drop_sublist _ _).trans h.buffer, h.remote, h.sent, ?_⟩
    apply Storage.forall_goto (Call.Tracked _ _ _)
    · exact fun j => ⟨fun s hs => ⟨((h.calls j).flight s hs).1, ((h.calls j).flight s hs).2.drop _⟩,
        (h.calls j).cutoff⟩
    · exact Call.Tracked.of_snapshot_eq_none rfl (by simp [Call.cutoff?])
  | purged i cutoff call hflight hcutoff _ =>
    refine ⟨List.filter_sublist.trans h.buffer, h.remote, h.sent, ?_⟩
    apply Storage.forall_goto (Call.Tracked _ _ _)
    · exact fun j =>
        ⟨fun s hs => ⟨((h.calls j).flight s hs).1, ((h.calls j).flight s hs).2.filter _⟩,
          fun c hc => List.mem_append_left _ ((h.calls j).cutoff c hc)⟩
    · apply Call.Tracked.of_snapshot_eq_none hflight
      intro c hc
      rw [hcutoff c hc]
      exact List.mem_append_right _ (List.mem_singleton_self cutoff)
  | deleted i cutoff hcall _ result =>
    refine ⟨h.buffer, fun x hx => h.remote x (List.mem_of_mem_filter hx), h.sent, ?_⟩
    apply Storage.forall_goto (Call.Tracked _ _ _) h.calls
    exact Call.Tracked.of_snapshot_eq_none rfl (by simp [Call.cutoff?])

/-! ### What an undisturbed step keeps -/

/-- The young events are stored, were sent once at most, and those that are stored twice belong to a
flush that is about to drain them. -/
structure Observed.Delivered (o : Observed ι) : Prop where
  stored : ∀ x ∈ o.buffered, o.Young x → x ∈ o.storage.buffer ∨ x ∈ o.storage.remote
  counted : ∀ x, o.Young x → o.storage.remote.count x = o.sent.count x
  once : ∀ x, o.Young x → o.sent.count x ≤ 1
  shared : ∀ x, o.Young x → x ∈ o.storage.buffer → x ∈ o.storage.remote →
    ∃ i, ∃ snapshot ∈ (o.storage.calls i).delivered?, x ∈ snapshot

omit [DecidableEq ι] in
theorem Observed.delivered_new : (new : Observed ι).Delivered where
  stored := by simp [new, buffered]
  counted := by simp [new, Storage.new]
  once := by simp [new]
  shared := by simp [new, Storage.new]

/-- A delivered snapshot stays one when a caller moves on that has no such snapshot with `x`. -/
theorem Storage.exists_delivered_goto {s : Storage ι α} {i : ι} {call : Call α} {x : α}
    (hi : ∀ snapshot ∈ (s.calls i).delivered?, x ∉ snapshot)
    (h : ∃ j, ∃ snapshot ∈ (s.calls j).delivered?, x ∈ snapshot) :
    ∃ j, ∃ snapshot ∈ ((s.goto i call).calls j).delivered?, x ∈ snapshot := by
  obtain ⟨j, snapshot, hs, hx⟩ := h
  have hne : j ≠ i := by
    rintro rfl
    exact hi snapshot hs hx
  refine ⟨j, snapshot, ?_, hx⟩
  simpa [goto, hne] using hs

theorem Observed.Delivered.step {e : Step ι StoredEvent} {o' : Observed ι} (ht : o.Tracked)
    (h : o.Delivered) (hp : o.Undisturbed e) (he : Effect o e o') : o'.Delivered := by
  cases he with
  | stays => exact h
  | moved _ i call _ _ hdelivered =>
    refine ⟨h.stored, h.counted, h.once, ?_⟩
    intro x hyoung hbuffer hremote
    exact Storage.exists_delivered_goto (by simp [hdelivered]) (h.shared x hyoung hbuffer hremote)
  | inserted i events call _ _ hdelivered =>
    have hbuffered := zipIdx_append_events o.inserted events
    refine ⟨?_, h.counted, h.once, ?_⟩
    · intro x hx hyoung
      rw [buffered, hbuffered, List.mem_append] at hx
      rcases hx with hold | hnew
      · exact (h.stored x hold hyoung).imp_left (List.mem_append_left _)
      · exact Or.inl (List.mem_append_right _ hnew)
    · intro x hyoung hbuffer hremote
      have hold : x ∈ o.buffered := ht.sent x (ht.remote x hremote)
      have hmem : x ∈ o.storage.buffer := by
        rcases List.mem_append.mp hbuffer with hmem | hnew
        · exact hmem
        · exact absurd hold (notMem_buffered hnew)
      exact Storage.exists_delivered_goto (by simp [hdelivered]) (h.shared x hyoung hmem hremote)
  | begun i call _ _ hdelivered =>
    refine ⟨h.stored, h.counted, h.once, ?_⟩
    intro x hyoung hbuffer hremote
    exact Storage.exists_delivered_goto (by simp [hdelivered]) (h.shared x hyoung hbuffer hremote)
  | sent i inserted snapshot hcall =>
    have hsub := ((ht.calls i).flight snapshot (by simp [hcall, Call.snapshot?])).1
    refine ⟨?_, ?_, ?_, ?_⟩
    · intro x hx hyoung
      exact (h.stored x hx hyoung).imp_right (List.mem_append_left _)
    · intro x hyoung
      show (o.storage.remote ++ snapshot).count x = (o.sent ++ snapshot).count x
      rw [List.count_append, List.count_append, h.counted x hyoung]
    · intro x hyoung
      show (o.sent ++ snapshot).count x ≤ 1
      rw [List.count_append]
      by_cases hx : x ∈ snapshot
      · have hfresh : o.sent.count x = 0 := by
          rw [← h.counted x hyoung]
          exact List.count_eq_zero_of_not_mem (hp inserted snapshot hcall x hx hyoung)
        have hle : snapshot.count x ≤ 1 :=
          List.nodup_iff_count_le_one.mp (o.nodup_buffered.sublist hsub) x
        omega
      · rw [List.count_eq_zero_of_not_mem hx]
        exact h.once x hyoung
    · intro x hyoung hbuffer hremote
      rcases List.mem_append.mp hremote with hold | hx
      · exact Storage.exists_delivered_goto (by simp [hcall, Call.delivered?])
          (h.shared x hyoung hbuffer hold)
      · exact ⟨i, snapshot, by simp [Storage.goto, Call.delivered?], hx⟩
  | drained i inserted snapshot hcall total result =>
    have hremains := ((ht.calls i).flight snapshot (by simp [hcall, Call.snapshot?])).2
    refine ⟨?_, h.counted, h.once, ?_⟩
    · intro x hx hyoung
      rcases h.stored x hx hyoung with hbuffer | hremote
      · rw [← List.take_append_drop snapshot.length o.storage.buffer, List.mem_append] at hbuffer
        exact hbuffer.symm.imp_right fun hdropped => hp inserted snapshot hcall x hdropped hyoung
      · exact Or.inr hremote
    · intro x hyoung hbuffer hremote
      -- the flush that ends has left nothing of its own snapshot in the buffer
      have hown : ∀ s ∈ (o.storage.calls i).delivered?, x ∉ s := by
        intro s hs
        obtain rfl : snapshot = s := by simpa [hcall, Call.delivered?] using hs
        exact hremains.notMem_drop hbuffer
      exact Storage.exists_delivered_goto hown
        (h.shared x hyoung (List.mem_of_mem_drop hbuffer) hremote)
  | purged i cutoff call _ _ hdelivered =>
    have hold (x : Instance) (hyoung : ∀ c ∈ o.cutoffs ++ [cutoff], c ≤ x.timestamp) : o.Young x :=
      fun c hc => hyoung c (List.mem_append_left _ hc)
    refine ⟨?_, fun x hx => h.counted x (hold x hx), fun x hx => h.once x (hold x hx), ?_⟩
    · intro x hx hyoung
      have hlate : cutoff ≤ x.timestamp := hyoung cutoff (by simp)
      refine (h.stored x hx (hold x hyoung)).imp_left fun hbuffer => ?_
      exact List.mem_filter.mpr ⟨hbuffer, decide_eq_true hlate⟩
    · intro x hyoung hbuffer hremote
      exact Storage.exists_delivered_goto (by simp [hdelivered])
        (h.shared x (hold x hyoung) (List.mem_of_mem_filter hbuffer) hremote)
  | deleted i cutoff hcutoff hdelivered result =>
    let keep (x : Instance) : Bool := cutoff ≤ x.timestamp
    have hlate (x : Instance) (hyoung : o.Young x) : keep x = true :=
      decide_eq_true (hyoung cutoff ((ht.calls i).cutoff cutoff hcutoff))
    refine ⟨?_, ?_, h.once, ?_⟩
    · intro x hx hyoung
      refine (h.stored x hx hyoung).imp_right fun hremote => ?_
      exact List.mem_filter.mpr ⟨hremote, hlate x hyoung⟩
    · intro x hyoung
      show (o.storage.remote.filter keep).count x = o.sent.count x
      rw [List.count_filter (hlate x hyoung), h.counted x hyoung]
    · intro x hyoung hbuffer hremote
      exact Storage.exists_delivered_goto (by simp [hdelivered])
        (h.shared x hyoung hbuffer (List.mem_of_mem_filter hremote))

omit [DecidableEq ι] in
theorem Observed.Delivered.kept (ht : o.Tracked) (h : o.Delivered) : o.Kept := by
  intro x hx hyoung
  have hbuffer : o.storage.buffer.count x ≤ 1 :=
    List.nodup_iff_count_le_one.mp (o.nodup_buffered.sublist ht.buffer) x
  have hremote : o.storage.remote.count x ≤ 1 := by
    rw [h.counted x hyoung]
    exact h.once x hyoung
  refine ⟨h.stored x hx hyoung, h.once x hyoung, fun hquiet => ?_⟩
  have hapart : ¬ (x ∈ o.storage.buffer ∧ x ∈ o.storage.remote) := by
    rintro ⟨hb, hr⟩
    obtain ⟨i, snapshot, hs, -⟩ := h.shared x hyoung hb hr
    have hnone := hquiet i
    cases hcall : o.storage.calls i <;> simp_all [Call.snapshot?, Call.delivered?]
  rw [List.count_append]
  rcases h.stored x hx hyoung with hb | hr
  · have hnot : x ∉ o.storage.remote := fun hr => hapart ⟨hb, hr⟩
    have hpos : 0 < o.storage.buffer.count x := List.count_pos_iff.mpr hb
    rw [List.count_eq_zero_of_not_mem hnot]
    omega
  · have hnot : x ∉ o.storage.buffer := fun hb => hapart ⟨hb, hr⟩
    have hpos : 0 < o.storage.remote.count x := List.count_pos_iff.mpr hr
    rw [List.count_eq_zero_of_not_mem hnot]
    omega

/-- A step into a state in which the events are kept was undisturbed. -/
theorem Observed.undisturbed_of_kept (ht : o.Tracked) (hd : o.Delivered)
    (e : Step ι StoredEvent) (h : (o.step config e).Kept) : o.Undisturbed e := by
  cases e with
  | send i error =>
    cases error with
    | some error => trivial
    | none =>
      intro inserted snapshot hcall x hx hyoung hremote
      have hsub := ((ht.calls i).flight snapshot (by simp [hcall, Call.snapshot?])).1
      have hsent : (o.step config (.send i none)).sent = o.sent ++ snapshot := by
        simp [step, Storage.sends, hcall]
      have hbuffered : (o.step config (.send i none)).buffered = o.buffered := by
        simp [step, Storage.buffers, buffered]
      have hyoung' : (o.step config (.send i none)).Young x := by
        simpa [step, Storage.purges, Young] using hyoung
      have honce := (h x (hbuffered ▸ hsub.subset hx) hyoung').2.1
      have hold : 0 < o.sent.count x := by
        rw [← hd.counted x hyoung]
        exact List.count_pos_iff.mpr hremote
      have hnew : 0 < snapshot.count x := List.count_pos_iff.mpr hx
      rw [hsent, List.count_append] at honce
      omega
  | drain i =>
    intro inserted snapshot hcall x hx hyoung
    have hstorage : (o.step config (.drain i)).storage =
        o.storage.drain i inserted snapshot.length := by
      simp [step, Step.number, Storage.step, hcall]
    have hbuffered : (o.step config (.drain i)).buffered = o.buffered := by
      simp [step, Storage.buffers, buffered]
    have hyoung' : (o.step config (.drain i)).Young x := by
      simpa [step, Storage.purges, Young] using hyoung
    have hmem : x ∈ o.buffered := ht.buffer.subset (List.mem_of_mem_take hx)
    have hnodup : o.storage.buffer.Nodup := o.nodup_buffered.sublist ht.buffer
    rcases (h x (hbuffered ▸ hmem) hyoung').1 with hb | hr
    · have hdrop : x ∈ o.storage.buffer.drop snapshot.length := by
        rw [hstorage, Storage.drain, drop_min_length] at hb
        exact hb
      exact absurd hdrop (List.disjoint_take_drop hnodup le_rfl hx)
    · rw [hstorage] at hr
      exact hr
  | _ => trivial

/-- The events are kept in every state of a run if and only if every step of it is undisturbed. -/
theorem kept_iff (config : ClickHouseConfig) (steps : List (Step ι StoredEvent)) :
    Throughout (Observed.step config) Observed.Kept Observed.new steps ↔
      Along (Observed.step config) Observed.Undisturbed Observed.new steps := by
  apply throughout_iff_along (I := fun o => o.Tracked ∧ o.Delivered)
  · intro o e h hp
    have he : Effect o e (o.step config e) := o.step_effect e
    exact ⟨h.1.step he, h.2.step h.1 hp he⟩
  · exact fun o h => h.2.kept h.1
  · exact fun o e h hkept => Observed.undisturbed_of_kept h.1 h.2 e hkept
  · exact ⟨Observed.tracked_new, Observed.delivered_new⟩

/-- An event with nothing but its time. -/
def eventAt (timestamp : Int) : StoredEvent :=
  ⟨timestamp, "default", 1001, 3, "dev1", "", "", "", "", "\x7b\x7d"⟩

/-- Two callers flush one event at the same time; the event that is buffered after the first of
them has drained is dropped by the second. -/
def overlapping : List (Step Bool StoredEvent) :=
  [.insert false [eventAt 1], .snapshot false, .snapshot true, .send false none, .send true none,
    .drain false, .insert false [eventAt 2], .drain true]

theorem not_kept_overlapping :
    ¬ Throughout (Observed.step defaultConfig) Observed.Kept Observed.new overlapping := by
  intro h
  let last := run (Observed.step defaultConfig) Observed.new overlapping
  have hkept : last.Kept := h.last
  have hcutoffs : last.cutoffs = [] := rfl
  have hyoung : last.Young (eventAt 2, 1) := by simp [Observed.Young, hcutoffs]
  have hstored := (hkept (eventAt 2, 1) (by decide) hyoung).1
  exact absurd hstored (by decide)

end Wardex.Clickhouse
