import Mathlib.Algebra.Group.Nat.Defs
import Mathlib.Algebra.GroupWithZero.Nat
import Mathlib.Data.List.Forall2
import Wardex.Lib.BoundedQueue
import Wardex.Lib.Records
import Wardex.Lib.Run

/-! The event bus: every subscriber has a queue of its own, and the bus a ring of recent events.
`D` is the JSON document of an event, which the bus does not look into.  Every operation holds the
lock.  What a subscriber gets, and what is dropped, holds over any interleaving of calls. -/

namespace Wardex.WsStream

open Wardex.Lib

structure WsEvent (D : Type) where
  eventType : String
  timestamp : String
  data : D
deriving DecidableEq

structure Subscriber (D : Type) where
  id : Nat
  channels : List String
  queue : List (WsEvent D)
deriving DecidableEq

structure EventBus (D : Type) where
  events : List (WsEvent D)
  maxBuffer : Nat
  sequence : Nat
  droppedEvents : Nat
  maxObservedQueueDepth : Nat
  subscribers : List (Subscriber D)
  nextSubscriberId : Nat
deriving DecidableEq

variable {D : Type}

def u64Max : Nat := 2 ^ 64 - 1

/-- An empty list of channels stands for all of them. -/
def wants (channels : List String) (event : WsEvent D) : Bool :=
  channels = [] ∨ event.eventType ∈ channels

/-- The loop over the subscribers, with its counters. -/
def fanOut (maxBuf : Nat) (event : WsEvent D) : List (Subscriber D) → (dropped maxDepth : Nat) →
    List (Subscriber D) × Nat × Nat
  | [], dropped, maxDepth => ([], dropped, maxDepth)
  | sub :: subs, dropped, maxDepth =>
    if wants sub.channels event then
      let queue := sub.queue ++ [event]
      let maxDepth := max maxDepth queue.length
      let (queue, dropped) := popExcess maxBuf queue dropped
      let (subs, dropped, maxDepth) := fanOut maxBuf event subs dropped maxDepth
      ({ sub with queue := queue } :: subs, dropped, maxDepth)
    else
      let (subs, dropped, maxDepth) := fanOut maxBuf event subs dropped maxDepth
      (sub :: subs, dropped, maxDepth)

namespace EventBus

def new (maxBuffer : Nat) : EventBus D where
  events := []
  maxBuffer := maxBuffer
  sequence := 0
  droppedEvents := 0
  maxObservedQueueDepth := 0
  subscribers := []
  nextSubscriberId := 1

/-- The sum of the dropped events saturates; the other counters wrap around. -/
def publish (bus : EventBus D) (event : WsEvent D) : EventBus D :=
  let (subscribers, dropped, maxDepth) :=
    fanOut bus.maxBuffer event bus.subscribers 0 bus.maxObservedQueueDepth
  let (events, dropped) := popExcess bus.maxBuffer (bus.events ++ [event]) dropped
  { bus with
    events := events
    sequence := (bus.sequence + 1) % 2 ^ 64
    droppedEvents := min (bus.droppedEvents + dropped) u64Max
    maxObservedQueueDepth := maxDepth
    subscribers := subscribers }

def subscribe (bus : EventBus D) (channels : List String) : EventBus D × Nat :=
  let id := bus.nextSubscriberId
  ({ bus with
    nextSubscriberId := (id + 1) % 2 ^ 64
    subscribers := bus.subscribers ++ [⟨id, channels, []⟩] }, id)

def unsubscribe (bus : EventBus D) (id : Nat) : EventBus D :=
  { bus with subscribers := bus.subscribers.filter fun s => s.id ≠ id }

def drain (bus : EventBus D) (subscriberId : Nat) : EventBus D × List (WsEvent D) :=
  match bus.subscribers.find? fun s => s.id = subscriberId with
  | some sub =>
    let subscribers :=
      updateFirst (fun s => s.id = subscriberId) (fun s => { s with queue := [] }) bus.subscribers
    ({ bus with subscribers := subscribers }, sub.queue)
  | none => (bus, [])

end EventBus

/-! ## Delivery -/

inductive BusCall (D : Type) where
  | publish (event : WsEvent D)
  | subscribe (channels : List String)
  | unsubscribe (id : Nat)
  | drain (subscriberId : Nat)

/-- The history of one subscriber: what was published since its subscription and since it was last
drained, and what the drains returned. -/
structure Ledger (D : Type) where
  id : Nat
  channels : List String
  published : List (WsEvent D)
  sinceDrain : List (WsEvent D)
  received : List (WsEvent D)

def Ledger.note (event : WsEvent D) (l : Ledger D) : Ledger D :=
  { l with published := l.published ++ [event], sinceDrain := l.sinceDrain ++ [event] }

def Ledger.drained (events : List (WsEvent D)) (l : Ledger D) : Ledger D :=
  { l with sinceDrain := [], received := l.received ++ events }

def EventBus.held (bus : EventBus D) : Nat :=
  (bus.subscribers.map fun s => s.queue.length).sum + bus.events.length

/-- The events that `publish` evicts: those held before or pushed by it, and not held after it. -/
def EventBus.evictions (bus : EventBus D) (event : WsEvent D) : Nat :=
  bus.held + (bus.subscribers.countP fun s => wants s.channels event) + 1 -
    (bus.publish event).held

/-- A bus with the history of its subscribers and the number of evictions so far. -/
structure BusSession (D : Type) where
  bus : EventBus D
  ledgers : List (Ledger D)
  evicted : Nat

namespace BusSession

def start (maxBuffer : Nat) : BusSession D := ⟨.new maxBuffer, [], 0⟩

def perform (s : BusSession D) : BusCall D → BusSession D
  | .publish event =>
    ⟨s.bus.publish event, s.ledgers.map (Ledger.note event), s.evicted + s.bus.evictions event⟩
  | .subscribe channels =>
    let (bus, id) := s.bus.subscribe channels
    ⟨bus, s.ledgers ++ [⟨id, channels, [], [], []⟩], s.evicted⟩
  | .unsubscribe id =>
    ⟨s.bus.unsubscribe id, s.ledgers.filter fun l => l.id ≠ id, s.evicted⟩
  | .drain id =>
    let (bus, events) := s.bus.drain id
    ⟨bus, updateFirst (fun l => l.id = id) (Ledger.drained events) s.ledgers, s.evicted⟩

end BusSession

/-- The queue holds the newest of the events that the subscriber wants, of those since it was last
drained; and what it has received, followed by the queue, is a subsequence of what it wanted. -/
structure Delivered (maxBuffer : Nat) (sub : Subscriber D) (l : Ledger D) : Prop where
  sameId : sub.id = l.id
  sameChannels : sub.channels = l.channels
  newest : sub.queue = (l.sinceDrain.filter (wants l.channels)).rtake maxBuffer
  inOrder : (l.received ++ sub.queue).Sublist (l.published.filter (wants l.channels))

/-! ## One subscriber -/

/-- What `publish` makes of one subscriber. -/
def Subscriber.deliver (maxBuffer : Nat) (event : WsEvent D) (sub : Subscriber D) : Subscriber D :=
  if wants sub.channels event then { sub with queue := (sub.queue ++ [event]).rtake maxBuffer }
  else sub

def Subscriber.lost (maxBuffer : Nat) (event : WsEvent D) (sub : Subscriber D) : Nat :=
  if wants sub.channels event then sub.queue.length + 1 - maxBuffer else 0

theorem fanOut_eq (maxBuffer : Nat) (event : WsEvent D) (subs : List (Subscriber D))
    (dropped maxDepth : Nat) : ∃ depth, fanOut maxBuffer event subs dropped maxDepth =
      (subs.map (Subscriber.deliver maxBuffer event),
        dropped + (subs.map (Subscriber.lost maxBuffer event)).sum, depth) := by
  induction subs generalizing dropped maxDepth with
  | nil => exact ⟨maxDepth, rfl⟩
  | cons sub subs ih =>
    rw [fanOut]
    split_ifs with hwants
    · simp only [popExcess_eq]
      obtain ⟨depth, hrest⟩ := ih (dropped + ((sub.queue ++ [event]).length - maxBuffer))
        (max maxDepth (sub.queue ++ [event]).length)
      rw [List.length_append, List.length_singleton] at hrest
      refine ⟨depth, ?_⟩
      simp only [List.length_append, List.length_singleton, hrest, List.map_cons, List.sum_cons,
        Subscriber.deliver, Subscriber.lost, if_pos hwants, Nat.add_assoc]
    · obtain ⟨depth, hrest⟩ := ih dropped maxDepth
      refine ⟨depth, ?_⟩
      simp only [hrest, List.map_cons, List.sum_cons, Subscriber.deliver, Subscriber.lost,
        if_neg hwants, Nat.zero_add]

/-- What is carried along: the published events fall into those before the last drain, of which the
subscriber received a subsequence, and those since. -/
structure Tracks (maxBuffer : Nat) (sub : Subscriber D) (l : Ledger D) : Prop where
  sameId : sub.id = l.id
  sameChannels : sub.channels = l.channels
  newest : sub.queue = (l.sinceDrain.filter (wants l.channels)).rtake maxBuffer
  history : ∃ earlier, l.published = earlier ++ l.sinceDrain ∧
    l.received.Sublist (earlier.filter (wants l.channels))

variable {maxBuffer : Nat} {sub : Subscriber D} {l : Ledger D}

theorem Tracks.delivered (h : Tracks maxBuffer sub l) : Delivered maxBuffer sub l := by
  obtain ⟨earlier, hpublished, hreceived⟩ := h.history
  refine ⟨h.sameId, h.sameChannels, h.newest, ?_⟩
  rw [hpublished, List.filter_append, h.newest]
  exact hreceived.append (rtake_suffix _ _).sublist

theorem Tracks.deliver (h : Tracks maxBuffer sub l) (event : WsEvent D) :
    Tracks maxBuffer (sub.deliver maxBuffer event) (l.note event) := by
  obtain ⟨earlier, hpublished, hreceived⟩ := h.history
  have hhistory : ∃ earlier, (l.note event).published = earlier ++ (l.note event).sinceDrain ∧
      l.received.Sublist (earlier.filter (wants l.channels)) :=
    ⟨earlier, by simp only [Ledger.note, hpublished, List.append_assoc], hreceived⟩
  unfold Subscriber.deliver
  split_ifs with hwants <;> rw [h.sameChannels] at hwants
  · refine ⟨h.sameId, h.sameChannels, ?_, hhistory⟩
    simp only [Ledger.note, List.filter_append, List.filter_cons_of_pos hwants, List.filter_nil]
    rw [h.newest, rtake_snoc]
  · refine ⟨h.sameId, h.sameChannels, ?_, hhistory⟩
    simp only [Ledger.note, List.filter_append, List.filter_cons_of_neg hwants, List.filter_nil,
      List.append_nil]
    exact h.newest

/-- A drain that returns the queue of the subscriber. -/
theorem Tracks.drain (h : Tracks maxBuffer sub l) :
    Tracks maxBuffer { sub with queue := [] } (l.drained sub.queue) := by
  obtain ⟨earlier, hpublished, hreceived⟩ := h.history
  refine ⟨h.sameId, h.sameChannels, (List.rtake_nil _).symm, l.published, ?_, ?_⟩
  · exact (List.append_nil _).symm
  · change (l.received ++ sub.queue).Sublist _
    rw [hpublished, List.filter_append, h.newest]
    exact hreceived.append (rtake_suffix _ _).sublist

theorem length_deliver (maxBuffer : Nat) (event : WsEvent D) (sub : Subscriber D) :
    (sub.deliver maxBuffer event).queue.length + sub.lost maxBuffer event =
      sub.queue.length + if wants sub.channels event then 1 else 0 := by
  unfold Subscriber.deliver Subscriber.lost
  split_ifs
  · rw [length_rtake, List.length_append, List.length_singleton]
    omega
  · rfl

/-! ## The bus -/

theorem publish_eq (bus : EventBus D) (event : WsEvent D) :
    (bus.publish event).subscribers = bus.subscribers.map (Subscriber.deliver bus.maxBuffer event) ∧
      (bus.publish event).events = (bus.events ++ [event]).rtake bus.maxBuffer ∧
      (bus.publish event).maxBuffer = bus.maxBuffer ∧
      (bus.publish event).droppedEvents = min (bus.droppedEvents +
        ((bus.subscribers.map (Subscriber.lost bus.maxBuffer event)).sum +
          (bus.events.length + 1 - bus.maxBuffer))) u64Max := by
  obtain ⟨depth, hfan⟩ :=
    fanOut_eq bus.maxBuffer event bus.subscribers 0 bus.maxObservedQueueDepth
  unfold EventBus.publish
  rw [hfan]
  simp only [popExcess_eq, List.length_append, List.length_singleton, Nat.zero_add, and_self]

theorem sum_length_deliver (event : WsEvent D) (subs : List (Subscriber D)) :
    ((subs.map (Subscriber.deliver maxBuffer event)).map fun s => s.queue.length).sum +
        (subs.map (Subscriber.lost maxBuffer event)).sum =
      (subs.map fun s => s.queue.length).sum + subs.countP fun s => wants s.channels event := by
  induction subs with
  | nil => rfl
  | cons sub subs ih =>
    have hsub := length_deliver maxBuffer event sub
    simp only [List.map_cons, List.sum_cons, List.countP_cons]
    omega

/-- The evictions of a publication are what it adds to the counter. -/
theorem evictions_eq (bus : EventBus D) (event : WsEvent D) : bus.evictions event =
    (bus.subscribers.map (Subscriber.lost bus.maxBuffer event)).sum +
      (bus.events.length + 1 - bus.maxBuffer) := by
  obtain ⟨hsubs, hevents, _, _⟩ := publish_eq bus event
  have hsum := @sum_length_deliver D bus.maxBuffer event bus.subscribers
  unfold EventBus.evictions EventBus.held
  rw [hsubs, hevents, length_rtake, List.length_append, List.length_singleton]
  omega

/-- The bus against the histories. -/
structure BusSession.Tracked (maxBuffer : Nat) (s : BusSession D) : Prop where
  capacity : s.bus.maxBuffer = maxBuffer
  tracks : List.Forall₂ (Tracks maxBuffer) s.bus.subscribers s.ledgers
  counted : s.bus.droppedEvents = min s.evicted u64Max

namespace BusSession

variable {s : BusSession D}

theorem Tracked.publish (h : s.Tracked maxBuffer) (event : WsEvent D) :
    (s.perform (.publish event)).Tracked maxBuffer := by
  obtain ⟨hsubs, _, hcapacity, hdropped⟩ := publish_eq s.bus event
  refine ⟨hcapacity.trans h.capacity, ?_, ?_⟩
  · change List.Forall₂ _ (s.bus.publish event).subscribers (s.ledgers.map (Ledger.note event))
    rw [hsubs, h.capacity, List.forall₂_map_left_iff, List.forall₂_map_right_iff]
    exact h.tracks.imp fun _ _ ht => ht.deliver event
  · change (s.bus.publish event).droppedEvents = min (s.evicted + s.bus.evictions event) u64Max
    rw [hdropped, evictions_eq, h.counted]
    omega

theorem Tracked.subscribe (h : s.Tracked maxBuffer) (channels : List String) :
    (s.perform (.subscribe channels)).Tracked maxBuffer := by
  refine ⟨h.capacity, ?_, h.counted⟩
  refine List.rel_append h.tracks (.cons ⟨rfl, rfl, ?_, [], rfl, .slnil⟩ .nil)
  exact (List.rtake_nil _).symm

theorem Tracked.unsubscribe (h : s.Tracked maxBuffer) (id : Nat) :
    (s.perform (.unsubscribe id)).Tracked maxBuffer := by
  refine ⟨h.capacity, ?_, h.counted⟩
  refine List.rel_filter (fun sub l ht => ?_) h.tracks
  simp [ht.sameId]

theorem Tracked.drain (h : s.Tracked maxBuffer) (id : Nat) :
    (s.perform (.drain id)).Tracked maxBuffer := by
  have hid : ∀ (sub : Subscriber D) l, Tracks maxBuffer sub l →
      decide (sub.id = id) = decide (l.id = id) :=
    fun sub l ht => by rw [ht.sameId]
  simp only [perform, EventBus.drain]
  cases hfind : s.bus.subscribers.find? fun sub => sub.id = id with
  | none =>
    refine ⟨h.capacity, ?_, h.counted⟩
    have htracks :
        List.Forall₂ _ (updateFirst _ (fun sub : Subscriber D => { sub with queue := [] }) _)
        (updateFirst _ (Ledger.drained []) _) :=
      forall₂_updateFirst h.tracks hid fun sub l _ hsub => by
        rw [hfind] at hsub
        cases hsub
    rwa [updateFirst_eq_self hfind] at htracks
  | some found =>
    refine ⟨h.capacity, forall₂_updateFirst h.tracks hid fun sub l ht hsub => ?_, h.counted⟩
    obtain rfl : found = sub := Option.some.inj (hfind.symm.trans hsub)
    exact ht.drain

theorem Tracked.perform (h : s.Tracked maxBuffer) (call : BusCall D) :
    (s.perform call).Tracked maxBuffer := by
  cases call with
  | publish event => exact h.publish event
  | subscribe channels => exact h.subscribe channels
  | unsubscribe id => exact h.unsubscribe id
  | drain id => exact h.drain id

theorem tracked_start (maxBuffer : Nat) : (start maxBuffer : BusSession D).Tracked maxBuffer :=
  ⟨rfl, .nil, rfl⟩

theorem tracked_run (maxBuffer : Nat) (calls : List (BusCall D)) :
    (run perform (start maxBuffer) calls).Tracked maxBuffer := by
  have htrivial : Along perform (fun _ _ => True) (start maxBuffer) calls :=
    along_iff.mpr fun _ _ _ _ => trivial
  exact run_invariant (fun s call h _ => h.perform call) (tracked_start maxBuffer) htrivial

end BusSession

/-- After any calls on a bus, every subscriber has got what it should, and the counter of dropped
events is the number of evictions, as far as it can count. -/
theorem delivered_and_counted (maxBuffer : Nat) (calls : List (BusCall D)) :
    let s := run BusSession.perform (BusSession.start maxBuffer) calls
    List.Forall₂ (Delivered maxBuffer) s.bus.subscribers s.ledgers ∧
      s.bus.droppedEvents = min s.evicted u64Max := by
  have h := BusSession.tracked_run maxBuffer calls
  exact ⟨h.tracks.imp fun _ _ ht => ht.delivered, h.counted⟩

/-! ## Where the counter stops -/

/-- A bus without buffer, and with `k` subscribers to everything. -/
structure Unbuffered (k : Nat) (bus : EventBus D) : Prop where
  capacity : bus.maxBuffer = 0
  ring : bus.events = []
  idle : ∀ sub ∈ bus.subscribers, sub.channels = [] ∧ sub.queue = []
  many : bus.subscribers.length = k

theorem Unbuffered.publish {k : Nat} {bus : EventBus D} (h : Unbuffered k bus)
    (event : WsEvent D) : Unbuffered k (bus.publish event) ∧ bus.evictions event = k + 1 := by
  obtain ⟨hsubs, hevents, hcapacity, _⟩ := publish_eq bus event
  rw [h.capacity] at hsubs hevents hcapacity
  have hdeliver : ∀ sub ∈ bus.subscribers,
      sub.deliver 0 event = sub ∧ sub.lost 0 event = 1 := by
    rintro ⟨id, channels, queue⟩ hsub
    obtain ⟨rfl, rfl⟩ := h.idle _ hsub
    exact ⟨rfl, rfl⟩
  have hsame : bus.subscribers.map (Subscriber.deliver 0 event) = bus.subscribers :=
    (List.map_congr_left fun sub hsub => (hdeliver sub hsub).1).trans (List.map_id' _)
  have hlost : (bus.subscribers.map (Subscriber.lost 0 event)).sum = k := by
    rw [List.map_congr_left fun sub hsub => (hdeliver sub hsub).2, List.map_const', h.many,
      List.sum_replicate_nat, Nat.mul_one]
  refine ⟨⟨hcapacity, ?_, ?_, ?_⟩, ?_⟩
  · rw [hevents, List.rtake_zero]
  · rw [hsubs, hsame]
    exact h.idle
  · rw [hsubs, hsame, h.many]
  · rw [evictions_eq, h.capacity, hlost, h.ring]
    rfl

theorem evicted_replicate {k : Nat} (n : Nat) {s : BusSession D} (h : Unbuffered k s.bus)
    (event : WsEvent D) :
    (run BusSession.perform s (List.replicate n (.publish event))).evicted =
      s.evicted + n * (k + 1) := by
  induction n generalizing s with
  | zero => simp
  | succ n ih =>
    obtain ⟨hnext, hevicted⟩ := h.publish event
    rw [List.replicate_succ, run_cons, ih hnext]
    change s.evicted + s.bus.evictions event + n * (k + 1) = _
    rw [hevicted, Nat.succ_mul, Nat.add_assoc, Nat.add_comm (k + 1)]

theorem unbuffered_replicate (k : Nat) {s : BusSession D} {j : Nat} (h : Unbuffered j s.bus) :
    Unbuffered (j + k) (run BusSession.perform s (List.replicate k (.subscribe []))).bus ∧
      (run BusSession.perform s (List.replicate k (.subscribe []))).evicted = s.evicted := by
  induction k generalizing s j with
  | zero => exact ⟨h, rfl⟩
  | succ k ih =>
    have hnext : Unbuffered (j + 1) (s.perform (.subscribe [])).bus := by
      refine ⟨h.capacity, h.ring, fun sub hsub => ?_, ?_⟩
      · rcases List.mem_append.mp hsub with hold | hnew
        · exact h.idle sub hold
        · rw [List.mem_singleton.mp hnew]
          exact ⟨rfl, rfl⟩
      · change (s.bus.subscribers ++ [_]).length = j + 1
        rw [List.length_append, h.many, List.length_singleton]
    rw [List.replicate_succ, run_cons, Nat.add_comm k, ← Nat.add_assoc]
    exact ih hnext

/-- `k` subscribers to everything and `n` publications, all without a buffer. -/
def flood (k n : Nat) (event : WsEvent D) : List (BusCall D) :=
  List.replicate k (.subscribe []) ++ List.replicate n (.publish event)

theorem evicted_flood (k n : Nat) (event : WsEvent D) :
    (run BusSession.perform (.start 0) (flood k n event)).evicted = n * (k + 1) := by
  have hstart : Unbuffered 0 (BusSession.start 0 : BusSession D).bus :=
    ⟨rfl, rfl, fun _ h => (nomatch h), rfl⟩
  obtain ⟨hsubs, hevicted⟩ := unbuffered_replicate k hstart
  rw [flood, run_append, evicted_replicate n hsubs, hevicted, Nat.zero_add]
  exact Nat.zero_add _

theorem flood_of_lt {k n : Nat} (hmany : u64Max < n * (k + 1)) (event : WsEvent D) :
    (run BusSession.perform (.start 0) (flood k n event)).evicted = n * (k + 1) ∧
      (run BusSession.perform (.start 0) (flood k n event)).bus.droppedEvents = u64Max ∧
      u64Max < (run BusSession.perform (.start 0) (flood k n event)).evicted := by
  have hevicted := evicted_flood k n event
  rw [(BusSession.tracked_run 0 (flood k n event)).counted, hevicted]
  exact ⟨rfl, Nat.min_eq_right hmany.le, hmany⟩

/-- The counter saturates, and the evictions go on. -/
theorem flood_uncounted :
    (run BusSession.perform (.start 0) (flood (2 ^ 32) (2 ^ 32) ⟨"alert", "t0", ()⟩)).evicted =
        2 ^ 32 * (2 ^ 32 + 1) ∧
      (run BusSession.perform (.start 0)
        (flood (2 ^ 32) (2 ^ 32) ⟨"alert", "t0", ()⟩)).bus.droppedEvents = u64Max ∧
      u64Max < (run BusSession.perform (.start 0)
        (flood (2 ^ 32) (2 ^ 32) ⟨"alert", "t0", ()⟩)).evicted :=
  flood_of_lt (by decide) _

end Wardex.WsStream
