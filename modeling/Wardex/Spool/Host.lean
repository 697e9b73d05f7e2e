import Wardex.Lib.Run
import Wardex.Spool.Persist

/-! Spools at work: what each operation moves and counts, and a host with several spools
that persist to files and restore from one another's files. -/

namespace Wardex.Spool

open Wardex.Lib Wardex.Audit

inductive SpoolOp where
  | enqueue (payload destination timestamp : String) (tenantId : Option String) (nonce : Nonce)
  | dequeue
  | dequeueForTenant (tenantId : String)
  | nack (entry : SpoolEntry) (nonce : Nonce)
  | drainAll
  | drainForTenant (tenantId : String)

/-- How many entries an operation moves, and how many it counts as dropped. -/
structure Movement where
  enqueued : Nat := 0
  returned : Nat := 0
  delivered : Nat := 0
  evicted : Nat := 0
  vanished : Nat := 0
  dropped : Nat := 0

structure Moves (m : Movement) (s s' : EncryptedSpool) : Prop where
  len : s'.len + m.delivered + m.evicted + m.vanished = s.len + m.enqueued + m.returned
  totalEnqueued : s'.totalEnqueued = s.totalEnqueued + UInt64.ofNat m.enqueued
  totalDelivered : s'.totalDelivered = s.totalDelivered + UInt64.ofNat m.delivered
  totalDropped : s'.totalDropped = s.totalDropped + UInt64.ofNat m.dropped
  maxEntries : s'.maxEntries = s.maxEntries

namespace Moves

theorem none (s : EncryptedSpool) : Moves { delivered := 0 } s s where
  len := rfl
  totalEnqueued := (UInt64.add_zero _).symm
  totalDelivered := (UInt64.add_zero _).symm
  totalDropped := (UInt64.add_zero _).symm
  maxEntries := rfl

theorem delivered_trans {n k : Nat} {s s' t : EncryptedSpool} (h : Moves { delivered := n } s s')
    (h' : Moves { delivered := k } s' t) : Moves { delivered := n + k } s t where
  len := by
    have hlen := h.len
    have hlen' := h'.len
    dsimp only at hlen hlen' ⊢
    omega
  totalEnqueued := by rw [h'.totalEnqueued, h.totalEnqueued, UInt64.add_assoc]; rfl
  totalDelivered := by
    rw [h'.totalDelivered, h.totalDelivered, UInt64.add_assoc, UInt64.ofNat_add]
  totalDropped := by rw [h'.totalDropped, h.totalDropped, UInt64.add_assoc]; rfl
  maxEntries := h'.maxEntries.trans h.maxEntries

end Moves

namespace EncryptedSpool

variable (sha256 : List UInt8 → Vector UInt8 32) (json : SerdeJson)

/-- The spool after an operation, its result left out. -/
def after (s : EncryptedSpool) : SpoolOp → EncryptedSpool
  | .enqueue payload destination timestamp tenantId nonce =>
    (s.enqueueWithTenant sha256 json payload destination timestamp tenantId nonce).1
  | .dequeue => (s.dequeue sha256 json).1
  | .dequeueForTenant tenantId => (s.dequeueForTenant sha256 json tenantId).1
  | .nack entry nonce => (s.nack sha256 json entry nonce).1
  | .drainAll => (s.drainAll sha256 json).1
  | .drainForTenant tenantId => (s.drainForTenant sha256 json tenantId).1

/-- A full spool drops its oldest entry, or at capacity zero counts a drop of none. -/
theorem enqueue_moves (s : EncryptedSpool) (payload destination timestamp : String)
    (tenantId : Option String) (nonce : Nonce) :
    Moves
      { enqueued := 1
        evicted := if s.maxEntries ≤ s.len ∧ 0 < s.len then 1 else 0
        dropped := if s.maxEntries ≤ s.len then 1 else 0 }
      s (s.enqueueWithTenant sha256 json payload destination timestamp tenantId nonce).1 := by
  by_cases hfull : s.maxEntries ≤ s.len
  · have hge : s.queue.length ≥ s.maxEntries := hfull
    simp only [enqueueWithTenant, if_pos hge, hfull, true_and, if_true]
    have htail : s.queue.tail.length + (if 0 < s.len then 1 else 0) = s.len := by
      unfold len
      cases s.queue <;> rfl
    refine ⟨?_, rfl, (UInt64.add_zero _).symm, rfl, rfl⟩
    change (s.queue.tail ++ [_]).length + 0 + (if 0 < s.len then 1 else 0) + 0 = s.len + 1 + 0
    rw [List.length_append, List.length_singleton]
    omega
  · have hlt : ¬ s.queue.length ≥ s.maxEntries := hfull
    simp only [enqueueWithTenant, if_neg hlt, hfull, false_and, if_false]
    refine ⟨?_, rfl, (UInt64.add_zero _).symm, (UInt64.add_zero _).symm, rfl⟩
    simp [len]

theorem dequeue_moves (s : EncryptedSpool) :
    ∃ n, Moves { delivered := n } s (s.dequeue sha256 json).1 := by
  unfold dequeue
  split
  · exact ⟨0, Moves.none s⟩
  · rename_i encrypted rest hqueue
    refine ⟨1, ?_, (UInt64.add_zero _).symm, rfl, (UInt64.add_zero _).symm, rfl⟩
    simp [len, hqueue]

theorem dequeueForTenant_moves (s : EncryptedSpool) (tenantId : String) :
    ∃ n, Moves { delivered := n } s (s.dequeueForTenant sha256 json tenantId).1 := by
  unfold dequeueForTenant
  dsimp only
  split
  · exact ⟨0, Moves.none s⟩
  · rename_i pos _
    split
    · exact ⟨0, Moves.none s⟩
    · rename_i encrypted hget
      obtain ⟨hpos, -⟩ := List.getElem?_eq_some_iff.mp hget
      refine ⟨1, ?_, (UInt64.add_zero _).symm, rfl, (UInt64.add_zero _).symm, rfl⟩
      simp only [len, List.length_eraseIdx_of_lt hpos]
      omega

/-- A nack either returns the entry to the queue or counts it as dropped. -/
theorem nack_moves (s : EncryptedSpool) (entry : SpoolEntry) (nonce : Nonce) :
    if entry.attempts + 1 > s.maxRetries then
      Moves { dropped := 1 } s (s.nack sha256 json entry nonce).1
    else Moves { returned := 1 } s (s.nack sha256 json entry nonce).1 := by
  unfold nack
  dsimp only
  split_ifs
  · exact ⟨rfl, (UInt64.add_zero _).symm, (UInt64.add_zero _).symm, rfl, rfl⟩
  · refine ⟨?_, (UInt64.add_zero _).symm, (UInt64.add_zero _).symm, (UInt64.add_zero _).symm, rfl⟩
    simp [len]

theorem drainAll_moves (s : EncryptedSpool) :
    ∃ n, Moves { delivered := n } s (s.drainAll sha256 json).1 := by
  fun_induction drainAll sha256 json s with
  | case1 s s' h =>
    have hmoves := s.dequeue_moves sha256 json
    rwa [h] at hmoves
  | case2 s s' entry h ih =>
    obtain ⟨n, hn⟩ := s.dequeue_moves sha256 json
    obtain ⟨k, hk⟩ := ih
    rw [h] at hn
    exact ⟨n + k, hn.delivered_trans hk⟩

theorem splitTenant_length (s : EncryptedSpool) (tenantId : String) (queue : List (List UInt8)) :
    (s.splitTenant sha256 json tenantId queue).1.length +
        (s.splitTenant sha256 json tenantId queue).2.length +
        queue.countP (fun e => (s.read sha256 json e).isNone) = queue.length := by
  induction queue with
  | nil => rfl
  | cons e queue ih =>
    rw [splitTenant, List.countP_cons, List.length_cons]
    dsimp only
    cases hread : s.read sha256 json e with
    | none =>
      dsimp only
      rw [Option.isNone_none, if_pos rfl]
      omega
    | some entry =>
      dsimp only
      rw [Option.isNone_some, if_neg Bool.false_ne_true]
      split_ifs
      · simp only [List.length_cons]
        omega
      · simp only [List.length_cons]
        omega

/-- Entries that cannot be read leave the queue uncounted. -/
theorem drainForTenant_moves (s : EncryptedSpool) (tenantId : String) :
    ∃ n, Moves
      { delivered := n
        vanished := s.queue.countP fun e => (s.read sha256 json e).isNone }
      s (s.drainForTenant sha256 json tenantId).1 := by
  refine ⟨_, ?_, (UInt64.add_zero _).symm, rfl, (UInt64.add_zero _).symm, rfl⟩
  exact s.splitTenant_length sha256 json tenantId s.queue

end EncryptedSpool

/-- Several spools and the files they have persisted so far. -/
structure Host (ι : Type*) where
  spools : ι → EncryptedSpool
  files : List (List UInt8)

inductive HostOp (ι : Type*) where
  | on (i : ι) (op : SpoolOp)
  | persist (i : ι)
  | restore (i : ι) (file : Nat)

namespace Host

variable {ι : Type*} [DecidableEq ι] (sha256 : List UInt8 → Vector UInt8 32) (json : SerdeJson)

def set (host : Host ι) (i : ι) (s : EncryptedSpool) : Host ι :=
  { host with spools := Function.update host.spools i s }

@[simp] theorem set_self (host : Host ι) (i : ι) (s : EncryptedSpool) :
    (host.set i s).spools i = s := by
  simp [set]

theorem set_of_ne (host : Host ι) {i j : ι} (h : j ≠ i) (s : EncryptedSpool) :
    (host.set i s).spools j = host.spools j := by
  simp [set, h]

/-- A restore from a file that is not there does nothing. -/
def step (host : Host ι) : HostOp ι → Host ι
  | .on i op => host.set i ((host.spools i).after sha256 json op)
  | .persist i => { host with files := host.files ++ [(host.spools i).persist] }
  | .restore i file =>
    match host.files[file]? with
    | none => host
    | some data => host.set i ((host.spools i).restore json data).1

variable {K : EncryptedSpool → Prop}

/-- Every spool satisfies `K`, and every file was persisted by a spool that did. -/
structure Kept (K : EncryptedSpool → Prop) (host : Host ι) : Prop where
  spools : ∀ i, K (host.spools i)
  files : ∀ data ∈ host.files, ∃ s, K s ∧ data = s.persist

theorem Kept.set {host : Host ι} (h : host.Kept K) (i : ι) {s : EncryptedSpool} (hs : K s) :
    (host.set i s).Kept K where
  spools j := by
    rcases eq_or_ne j i with rfl | hne
    · rw [set_self]
      exact hs
    · rw [set_of_ne host hne]
      exact h.spools j
  files := h.files

/-- A condition on single operations that is exactly what a property of single spools costs is
exactly what it costs on a host, when restoring keeps the property. -/
theorem throughout_iff_along {Q : EncryptedSpool → Prop} {C : EncryptedSpool → SpoolOp → Prop}
    (hQ : ∀ s, K s → Q s)
    (hkeep : ∀ s op, K s → C s op → K (s.after sha256 json op))
    (hforce : ∀ s op, K s → Q (s.after sha256 json op) → C s op)
    (hrestore : ∀ s t, K s → K t → K (t.restore json s.persist).1)
    {host : Host ι} (h : host.Kept K) (ops : List (HostOp ι)) :
    Throughout (step sha256 json) (fun host => ∀ i, Q (host.spools i)) host ops ↔
      Along (step sha256 json)
        (fun host op => ∀ i o, op = HostOp.on i o → C (host.spools i) o) host ops := by
  refine Lib.throughout_iff_along (I := Kept K) ?_ (fun host h i => hQ _ (h.spools i)) ?_ h
  · intro host op h hop
    cases op with
    | on i op => exact h.set i (hkeep _ op (h.spools i) (hop i op rfl))
    | persist i =>
      refine ⟨h.spools, fun data hdata => ?_⟩
      rcases List.mem_append.mp hdata with hdata | hdata
      · exact h.files data hdata
      · exact ⟨_, h.spools i, List.mem_singleton.mp hdata⟩
    | restore i file =>
      simp only [step]
      split
      · exact h
      · rename_i data hget
        obtain ⟨s, hs, rfl⟩ := h.files data (List.mem_of_getElem? hget)
        exact h.set i (hrestore s _ hs (h.spools i))
  · rintro host op h hq i o rfl
    refine hforce _ o (h.spools i) ?_
    have hi := hq i
    rwa [step, set_self] at hi

end Host

end Wardex.Spool
