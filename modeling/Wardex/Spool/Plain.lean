import Mathlib.Data.List.ReduceOption
import Wardex.Spool.Host

/-! The spool in the clear: what its operations do to the entries, whatever keys and nonces hide
them. -/

namespace Wardex.Spool

/-- The entry can be read and is the tenant's. -/
def ofTenant (tenantId : Option String) (entry : Option SpoolEntry) : Bool :=
  entry.any fun e => e.tenantId = tenantId

/-- A queue of entries, none for one that cannot be read. -/
structure PlainSpool where
  entries : List (Option SpoolEntry)
  maxEntries : Nat
  nextSeq : UInt64
  totalEnqueued : UInt64
  totalDelivered : UInt64
  totalDropped : UInt64
  maxRetries : UInt32

namespace PlainSpool

def enqueue (p : PlainSpool) (payload destination timestamp : String) (tenantId : Option String) :
    PlainSpool :=
  let entry : SpoolEntry :=
    { seq := p.nextSeq, enqueuedAt := timestamp, attempts := 0, payload := payload,
      destination := destination, tenantId := tenantId }
  let full : Bool := p.maxEntries ≤ p.entries.length
  { p with
    entries := (if full then p.entries.tail else p.entries) ++ [some entry]
    nextSeq := p.nextSeq + 1
    totalEnqueued := p.totalEnqueued + 1
    totalDropped := if full then p.totalDropped + 1 else p.totalDropped }

/-- These entries are left after `count` were delivered. -/
def delivered (p : PlainSpool) (count : Nat) (entries : List (Option SpoolEntry)) : PlainSpool :=
  { p with entries := entries, totalDelivered := p.totalDelivered + UInt64.ofNat count }

def dequeue (p : PlainSpool) : PlainSpool × Option SpoolEntry :=
  (p.delivered (min 1 p.entries.length) p.entries.tail, p.entries.head?.join)

/-- The tenant's first entry leaves the queue. -/
def dequeueForTenant (p : PlainSpool) (tenantId : String) : PlainSpool × Option SpoolEntry :=
  (p.delivered (min 1 (p.entries.countP (ofTenant (some tenantId))))
      (p.entries.eraseP (ofTenant (some tenantId))),
    (p.entries.find? (ofTenant (some tenantId))).join)

def nack (p : PlainSpool) (entry : SpoolEntry) : PlainSpool × Option SpoolEntry :=
  let entry := { entry with attempts := entry.attempts + 1 }
  if entry.attempts > p.maxRetries then ({ p with totalDropped := p.totalDropped + 1 }, none)
  else ({ p with entries := p.entries ++ [some entry] }, some entry)

/-- What can be read before the first entry that cannot; that one leaves the queue too. -/
def drainAll (p : PlainSpool) : PlainSpool × List SpoolEntry :=
  (p.delivered (min ((p.entries.takeWhile Option.isSome).length + 1) p.entries.length)
      (p.entries.dropWhile Option.isSome).tail,
    (p.entries.takeWhile Option.isSome).reduceOption)

/-- All of the tenant's entries leave the queue, and those that cannot be read. -/
def drainForTenant (p : PlainSpool) (tenantId : String) : PlainSpool × List SpoolEntry :=
  (p.delivered (p.entries.countP (ofTenant (some tenantId)))
      (p.entries.filter fun e => e.isSome && !ofTenant (some tenantId) e),
    (p.entries.filter (ofTenant (some tenantId))).reduceOption)

theorem drainAll_of_none {p : PlainSpool} (h : p.dequeue.2 = none) :
    p.drainAll = (p.dequeue.1, []) := by
  obtain ⟨entries, _⟩ := p
  cases entries with
  | nil => rfl
  | cons entry entries =>
    cases entry with
    | none => simp [drainAll, dequeue, delivered]
    | some entry => cases h

theorem drainAll_of_some {p : PlainSpool} {entry : SpoolEntry} (h : p.dequeue.2 = some entry) :
    p.drainAll = (p.dequeue.1.drainAll.1, entry :: p.dequeue.1.drainAll.2) := by
  obtain ⟨entries, _, _, _, totalDelivered, _, _⟩ := p
  cases entries with
  | nil => cases h
  | cons head entries =>
    obtain rfl : head = some entry := h
    have hadd (n : UInt64) : totalDelivered + (n + 1) = totalDelivered + 1 + n := by
      rw [UInt64.add_comm n, UInt64.add_assoc]
    simp [drainAll, dequeue, delivered, hadd, List.reduceOption_cons_of_some]

def after (p : PlainSpool) : SpoolOp → PlainSpool
  | .enqueue payload destination timestamp tenantId _ =>
    p.enqueue payload destination timestamp tenantId
  | .dequeue => p.dequeue.1
  | .dequeueForTenant tenantId => (p.dequeueForTenant tenantId).1
  | .nack entry _ => (p.nack entry).1
  | .drainAll => p.drainAll.1
  | .drainForTenant tenantId => (p.drainForTenant tenantId).1

end PlainSpool

namespace EncryptedSpool

variable (sha256 : List UInt8 → Vector UInt8 32) (json : SerdeJson)

/-- The spool with its entries decrypted and parsed. -/
def plain (s : EncryptedSpool) : PlainSpool where
  entries := s.queue.map (s.read sha256 json)
  maxEntries := s.maxEntries
  nextSeq := s.nextSeq
  totalEnqueued := s.totalEnqueued
  totalDelivered := s.totalDelivered
  totalDropped := s.totalDropped
  maxRetries := s.maxRetries

/-- Removing at the first position found is erasing the first element found. -/
theorem findIdx?_cases {α : Type*} (p : α → Bool) (l : List α) :
    (l.findIdx? p = none ∧ l.find? p = none ∧ l.eraseP p = l ∧ l.countP p = 0) ∨
      ∃ i a, l.findIdx? p = some i ∧ l[i]? = some a ∧ l.find? p = some a ∧
        l.eraseP p = l.eraseIdx i ∧ 0 < l.countP p := by
  cases hfound : l.findIdx? p with
  | none =>
    have hnone : ∀ a ∈ l, ¬ p a := fun a ha h => by
      rw [List.findIdx?_eq_none_iff] at hfound
      exact Bool.noConfusion (h.symm.trans (hfound a ha))
    refine Or.inl ⟨rfl, List.find?_eq_none.mpr hnone, List.eraseP_of_forall_not hnone, ?_⟩
    exact List.countP_eq_zero.mpr hnone
  | some i =>
    obtain ⟨hi, hp, hbefore⟩ := List.findIdx?_eq_some_iff_getElem.mp hfound
    refine Or.inr ⟨i, l[i], rfl, List.getElem?_eq_getElem hi, ?_, ?_, ?_⟩
    · refine List.find?_eq_some_iff_getElem.mpr ⟨hp, i, hi, rfl, fun j hj => ?_⟩
      simpa using hbefore j hj
    · rw [List.eraseP_eq_eraseIdx, hfound]
    · exact List.countP_pos_iff.mpr ⟨_, List.getElem_mem hi, hp⟩

variable (s : EncryptedSpool)

theorem dequeueForTenant_eq (tenantId : String) : s.dequeueForTenant sha256 json tenantId =
    ({ s with
       queue := s.queue.eraseP (ofTenant (some tenantId) ∘ s.read sha256 json)
       totalDelivered := s.totalDelivered + UInt64.ofNat
        (min 1 (s.queue.countP (ofTenant (some tenantId) ∘ s.read sha256 json))) },
      (s.queue.find? (ofTenant (some tenantId) ∘ s.read sha256 json)).bind
        (s.read sha256 json)) := by
  have hfindIdx : ∀ p : List UInt8 → Bool,
      (∀ encrypted, p encrypted = ofTenant (some tenantId) (s.read sha256 json encrypted)) →
      s.queue.findIdx? p = s.queue.findIdx? (ofTenant (some tenantId) ∘ s.read sha256 json) :=
    fun p hp => congrArg s.queue.findIdx? (funext hp)
  unfold dequeueForTenant
  rw [hfindIdx _ fun encrypted => by cases s.read sha256 json encrypted <;> rfl]
  obtain ⟨hidx, hfind, herase, hcount⟩ | ⟨i, a, hidx, hget, hfind, herase, hcount⟩ :=
    findIdx?_cases (ofTenant (some tenantId) ∘ s.read sha256 json) s.queue
  · have hzero : s.totalDelivered + UInt64.ofNat (min 1 0) = s.totalDelivered := UInt64.add_zero _
    rw [hidx, hfind, herase, hcount, hzero]
    rfl
  · rw [hidx, hfind, herase, Nat.min_eq_left hcount]
    dsimp only
    rw [hget]
    rfl

theorem splitTenant_eq (tenantId : String) (queue : List (List UInt8)) :
    s.splitTenant sha256 json tenantId queue =
      (queue.filter fun e =>
          (s.read sha256 json e).isSome && !ofTenant (some tenantId) (s.read sha256 json e),
        ((queue.map (s.read sha256 json)).filter (ofTenant (some tenantId))).reduceOption) := by
  induction queue with
  | nil => rfl
  | cons encrypted queue ih =>
    rw [splitTenant, ih, List.filter_cons, List.map_cons, List.filter_cons]
    cases s.read sha256 json encrypted with
    | none => rfl
    | some entry =>
      by_cases htenant : entry.tenantId = some tenantId
      · simp [ofTenant, htenant, List.reduceOption_cons_of_some]
      · simp [ofTenant, htenant]

/-- The plain spool and the result of an operation. -/
def shown {α : Type} (x : EncryptedSpool × α) : PlainSpool × α := (x.1.plain sha256 json, x.2)

theorem shown_dequeue :
    shown sha256 json (s.dequeue sha256 json) = (s.plain sha256 json).dequeue := by
  unfold dequeue PlainSpool.dequeue
  cases hqueue : s.queue with
  | nil =>
    have hzero : s.totalDelivered + UInt64.ofNat (min 1 0) = s.totalDelivered := UInt64.add_zero _
    simp only [shown, plain, PlainSpool.delivered, hqueue, List.map_nil, List.length_nil, hzero]
    rfl
  | cons encrypted rest =>
    have hone : min 1 (rest.length + 1) = 1 := Nat.min_eq_left (Nat.le_add_left 1 _)
    simp only [shown, plain, PlainSpool.delivered, hqueue, List.map_cons, List.length_cons,
      List.length_map, hone]
    rfl

theorem shown_dequeueForTenant (tenantId : String) :
    shown sha256 json (s.dequeueForTenant sha256 json tenantId) =
      (s.plain sha256 json).dequeueForTenant tenantId := by
  rw [dequeueForTenant_eq]
  have hfind : (s.queue.find? (ofTenant (some tenantId) ∘ s.read sha256 json)).bind
      (s.read sha256 json) =
        ((s.queue.map (s.read sha256 json)).find? (ofTenant (some tenantId))).join := by
    rw [List.find?_map]
    cases s.queue.find? (ofTenant (some tenantId) ∘ s.read sha256 json) <;> rfl
  simp only [shown, PlainSpool.dequeueForTenant, plain, PlainSpool.delivered, hfind,
    List.eraseP_map, List.countP_map]
  rfl

theorem shown_drainForTenant (tenantId : String) :
    shown sha256 json (s.drainForTenant sha256 json tenantId) =
      (s.plain sha256 json).drainForTenant tenantId := by
  have hcount : ((s.queue.map (s.read sha256 json)).filter
      (ofTenant (some tenantId))).reduceOption.length =
        (s.queue.map (s.read sha256 json)).countP (ofTenant (some tenantId)) := by
    rw [List.countP_eq_length_filter, List.reduceOption_length_eq_iff]
    intro e he
    obtain ⟨entry, rfl, -⟩ := (Option.any_eq_true _ _).mp (List.mem_filter.mp he).2
    rfl
  have hkept := List.filter_map (f := s.read sha256 json) (l := s.queue)
    (p := fun e => e.isSome && !ofTenant (some tenantId) e)
  unfold drainForTenant
  rw [splitTenant_eq]
  simp only [shown, PlainSpool.drainForTenant, plain, PlainSpool.delivered, hcount, hkept]
  rfl

theorem shown_drainAll :
    shown sha256 json (s.drainAll sha256 json) = (s.plain sha256 json).drainAll := by
  fun_induction drainAll sha256 json s with
  | case1 s s' h =>
    have hdequeue := s.shown_dequeue sha256 json
    rw [h] at hdequeue
    rw [PlainSpool.drainAll_of_none (congrArg Prod.snd hdequeue.symm), ← hdequeue]
    rfl
  | case2 s s' entry h ih =>
    have hdequeue := s.shown_dequeue sha256 json
    rw [h] at hdequeue
    rw [PlainSpool.drainAll_of_some (congrArg Prod.snd hdequeue.symm), ← hdequeue]
    change _ = ((s'.plain sha256 json).drainAll.1, entry :: (s'.plain sha256 json).drainAll.2)
    rw [← ih]
    rfl

section

variable {json} (hentry : ∀ e, json.entryFromSlice (json.entryToVec e) = some e)

include hentry

theorem read_spoolEncrypt (e : SpoolEntry) (nonce : Nonce) :
    s.read sha256 json (spoolEncrypt sha256 (json.entryToVec e) s.key nonce) = some e := by
  rw [read, spoolDecrypt_spoolEncrypt, hentry]

theorem plain_enqueue (payload destination timestamp : String) (tenantId : Option String)
    (nonce : Nonce) :
    (s.enqueueWithTenant sha256 json payload destination timestamp tenantId nonce).1.plain
        sha256 json =
      (s.plain sha256 json).enqueue payload destination timestamp tenantId := by
  have hread := s.read_spoolEncrypt sha256 hentry
    { seq := s.nextSeq, enqueuedAt := timestamp, attempts := 0, payload := payload,
      destination := destination, tenantId := tenantId } nonce
  by_cases hfull : s.maxEntries ≤ s.queue.length
  · simp only [enqueueWithTenant, ge_iff_le, PlainSpool.enqueue, plain, List.length_map, hfull,
      if_true, decide_true, List.map_append, List.map_tail, List.map_singleton]
    rw [← hread]
    rfl
  · simp only [enqueueWithTenant, ge_iff_le, PlainSpool.enqueue, plain, List.length_map, hfull,
      if_false, decide_false, List.map_append, List.map_singleton]
    rw [← hread]
    rfl

theorem shown_nack (entry : SpoolEntry) (nonce : Nonce) :
    shown sha256 json (s.nack sha256 json entry nonce) = (s.plain sha256 json).nack entry := by
  have hread := s.read_spoolEncrypt sha256 hentry
    { entry with attempts := entry.attempts + 1 } nonce
  have hretries : (s.plain sha256 json).maxRetries = s.maxRetries := rfl
  unfold nack PlainSpool.nack
  dsimp only
  rw [hretries]
  split_ifs
  · rfl
  · rw [shown, plain, plain]
    dsimp only
    rw [List.map_append, List.map_singleton, ← hread]
    rfl

/-- Encryption does not show: the spool does to its entries what the plain one does. -/
theorem plain_after (op : SpoolOp) :
    (s.after sha256 json op).plain sha256 json = (s.plain sha256 json).after op := by
  cases op with
  | enqueue payload destination timestamp tenantId nonce =>
    exact s.plain_enqueue sha256 hentry payload destination timestamp tenantId nonce
  | dequeue => exact congrArg Prod.fst (s.shown_dequeue sha256 json)
  | dequeueForTenant tenantId =>
    exact congrArg Prod.fst (s.shown_dequeueForTenant sha256 json tenantId)
  | nack entry nonce => exact congrArg Prod.fst (s.shown_nack sha256 hentry entry nonce)
  | drainAll => exact congrArg Prod.fst (s.shown_drainAll sha256 json)
  | drainForTenant tenantId =>
    exact congrArg Prod.fst (s.shown_drainForTenant sha256 json tenantId)

theorem plain_run (ops : List SpoolOp) :
    (ops.foldl (after sha256 json) s).plain sha256 json =
      ops.foldl PlainSpool.after (s.plain sha256 json) := by
  induction ops generalizing s with
  | nil => rfl
  | cons op ops ih => rw [List.foldl_cons, List.foldl_cons, ih, plain_after sha256 s hentry]

end

end EncryptedSpool

end Wardex.Spool
