import Wardex.Spool.Host

/-! What keeps a spool within its capacity: taking from the queue and restoring do, adding to
it does under a condition.  Every entry a spool has taken in is in the queue, delivered or dropped,
as long as the operations count what they move. -/

namespace Wardex.Spool

open Wardex.Lib Wardex.Audit

namespace EncryptedSpool

variable (sha256 : List UInt8 → Vector UInt8 32) (json : SerdeJson)

/-- There is room for what the operation adds to the queue: an enqueue makes room itself,
unless the capacity is zero, and a nack adds nothing when it has used up the retries. -/
def HasRoom (s : EncryptedSpool) : SpoolOp → Prop
  | .enqueue _ _ _ _ _ => s.maxEntries ≠ 0
  | .nack entry _ => s.maxRetries < entry.attempts + 1 ∨ s.len < s.maxEntries
  | _ => True

/-- A spool within its capacity stays within it exactly when there is room. -/
theorem len_after_le_iff {s : EncryptedSpool} (h : s.len ≤ s.maxEntries) (op : SpoolOp) :
    (s.after sha256 json op).len ≤ s.maxEntries ↔ s.HasRoom op := by
  have htaken : ∀ {s' : EncryptedSpool}, (∃ n, Moves { delivered := n } s s') →
      s'.len ≤ s.maxEntries := by
    rintro s' ⟨n, hn⟩
    have hlen := hn.len
    dsimp only at hlen
    omega
  cases op with
  | enqueue payload destination timestamp tenantId nonce =>
    have hlen := (s.enqueue_moves sha256 json payload destination timestamp tenantId nonce).len
    change (s.enqueueWithTenant sha256 json payload destination timestamp tenantId nonce).1.len ≤
      s.maxEntries ↔ s.maxEntries ≠ 0
    dsimp only at hlen
    split_ifs at hlen <;> omega
  | dequeue => exact iff_of_true (htaken (s.dequeue_moves sha256 json)) trivial
  | dequeueForTenant tenantId =>
    exact iff_of_true (htaken (s.dequeueForTenant_moves sha256 json tenantId)) trivial
  | nack entry nonce =>
    have hmoves := s.nack_moves sha256 json entry nonce
    change (s.nack sha256 json entry nonce).1.len ≤ s.maxEntries ↔
      s.maxRetries < entry.attempts + 1 ∨ s.len < s.maxEntries
    split_ifs at hmoves with hdead
    · have hlen := hmoves.len
      dsimp only at hlen
      exact iff_of_true (by omega) (Or.inl hdead)
    · have hlen := hmoves.len
      dsimp only at hlen
      rw [or_iff_right hdead]
      omega
  | drainAll => exact iff_of_true (htaken (s.drainAll_moves sha256 json)) trivial
  | drainForTenant tenantId =>
    obtain ⟨n, hn⟩ := s.drainForTenant_moves sha256 json tenantId
    have hlen := hn.len
    dsimp only at hlen
    have hkept : (s.drainForTenant sha256 json tenantId).1.len ≤ s.maxEntries := by omega
    exact iff_of_true hkept trivial

theorem maxEntries_after (s : EncryptedSpool) (op : SpoolOp) :
    (s.after sha256 json op).maxEntries = s.maxEntries := by
  cases op with
  | enqueue payload destination timestamp tenantId nonce =>
    exact (s.enqueue_moves sha256 json payload destination timestamp tenantId nonce).maxEntries
  | dequeue =>
    obtain ⟨n, hn⟩ := s.dequeue_moves sha256 json
    exact hn.maxEntries
  | dequeueForTenant tenantId =>
    obtain ⟨n, hn⟩ := s.dequeueForTenant_moves sha256 json tenantId
    exact hn.maxEntries
  | nack entry nonce =>
    have hmoves := s.nack_moves sha256 json entry nonce
    split_ifs at hmoves <;> exact hmoves.maxEntries
  | drainAll =>
    obtain ⟨n, hn⟩ := s.drainAll_moves sha256 json
    exact hn.maxEntries
  | drainForTenant tenantId =>
    obtain ⟨n, hn⟩ := s.drainForTenant_moves sha256 json tenantId
    exact hn.maxEntries

end EncryptedSpool

section

variable (sha256 : List UInt8 → Vector UInt8 32) {json : SerdeJson}
  (hheader : ∀ h : SpoolPersistHeader, json.headerFromStr h.text = .ok h)

include hheader

/-- Spools of one capacity stay within it exactly as long as there is room at each step. -/
theorem len_le_iff_hasRoom {ι : Type*} [DecidableEq ι] {key : ι → List UInt8} {maxEntries : Nat}
    {spools : ι → EncryptedSpool}
    (hnew : ∀ i, EncryptedSpool.tryNew (key i) maxEntries = .ok (spools i))
    (ops : List (HostOp ι)) :
    Throughout (Host.step sha256 json) (fun host => ∀ i, (host.spools i).len ≤ maxEntries)
        ⟨spools, []⟩ ops ↔
      Along (Host.step sha256 json)
        (fun host op => ∀ i o, op = HostOp.on i o → (host.spools i).HasRoom o)
        ⟨spools, []⟩ ops := by
  have hrestore : ∀ s t : EncryptedSpool,
      (s.maxEntries = maxEntries ∧ s.len ≤ maxEntries) →
      (t.maxEntries = maxEntries ∧ t.len ≤ maxEntries) →
      (t.restore json s.persist).1.maxEntries = maxEntries ∧
        (t.restore json s.persist).1.len ≤ maxEntries := by
    rintro s t ⟨-, hs⟩ ⟨hcap, ht⟩
    rcases EncryptedSpool.restore_persist_cases hheader s t with he | ⟨-, he⟩
    · rw [he]
      exact ⟨hcap, ht⟩
    · rw [he]
      exact ⟨hcap, (List.length_filter_le _ _).trans hs⟩
  refine Host.throughout_iff_along sha256 json
    (K := fun s => s.maxEntries = maxEntries ∧ s.len ≤ maxEntries) (fun s hs => hs.2)
    ?_ ?_ hrestore ⟨fun i => ?_, fun data hdata => ?_⟩ ops
  · rintro s op ⟨rfl, hs⟩ hop
    exact ⟨s.maxEntries_after sha256 json op, (s.len_after_le_iff sha256 json hs op).mpr hop⟩
  · rintro s op ⟨rfl, hs⟩ hop
    exact (s.len_after_le_iff sha256 json hs op).mp hop
  · obtain ⟨hlen, hcap, -⟩ := EncryptedSpool.tryNew_ok (hnew i)
    exact ⟨hcap, hlen.trans_le (Nat.zero_le _)⟩
  · exact absurd hdata List.not_mem_nil

end

/-- The first entry of the runs below, as it comes back from the queue. -/
def firstEntry : SpoolEntry where
  seq := 1
  enqueuedAt := "t1"
  attempts := 0
  payload := "a"
  destination := "siem"
  tenantId := none

/-- A digest that leaves every entry as it is. -/
def zeroDigest (_ : List UInt8) : Vector UInt8 32 := Vector.replicate 32 0

def zeroNonce : Nonce := Vector.replicate 16 0

theorem dequeue_firstEntry :
    (((keySpool 1).after zeroDigest (plainJson [firstEntry])
      (.enqueue "a" "siem" "t1" none zeroNonce)).dequeue zeroDigest (plainJson [firstEntry])).2 =
      some firstEntry := by
  have hread : (((keySpool 1).after zeroDigest (plainJson [firstEntry])
      (.enqueue "a" "siem" "t1" none zeroNonce)).dequeue zeroDigest (plainJson [firstEntry])).2 =
      (plainJson [firstEntry]).entryFromSlice (spoolDecrypt zeroDigest
        (spoolEncrypt zeroDigest (asBytes firstEntry.text) [0x6b, 0x65, 0x79] zeroNonce)
        [0x6b, 0x65, 0x79]) := rfl
  rw [hread, spoolDecrypt_spoolEncrypt]
  simp [plainJson]

theorem len_le_iff_hasRoom_key :
    Throughout (Host.step zeroDigest (plainJson [firstEntry]))
      (fun host => ∀ i : Unit, (host.spools i).len ≤ 1) ⟨fun _ => keySpool 1, []⟩
      [.on () (.enqueue "a" "siem" "t1" none zeroNonce),
        .on () (.enqueue "b" "siem" "t2" none zeroNonce), .persist (), .on () .dequeue,
        .on () (.nack firstEntry zeroNonce), .restore () 0] := by
  refine (len_le_iff_hasRoom zeroDigest (headerFromStr_plainJson _)
    (fun _ => tryNew_key 1) _).mpr ?_
  refine ⟨?_, ?_, ?_, ?_, ?_, ?_, trivial⟩ <;> rintro i o h <;> cases h
  · exact Nat.one_ne_zero
  · exact Nat.one_ne_zero
  · trivial
  · exact Or.inr Nat.zero_lt_one

/-- A nack after the queue has filled up again adds an entry beyond the capacity. -/
theorem capacity_exceeded :
    let json := plainJson [firstEntry]
    let filled := (keySpool 1).after zeroDigest json (.enqueue "a" "siem" "t1" none zeroNonce)
    let refilled := (filled.dequeue zeroDigest json).1.after zeroDigest json
      (.enqueue "b" "siem" "t2" none zeroNonce)
    EncryptedSpool.tryNew [0x6b, 0x65, 0x79] 1 = .ok (keySpool 1) ∧
      (filled.dequeue zeroDigest json).2 = some firstEntry ∧
      ¬ (refilled.after zeroDigest json (.nack firstEntry zeroNonce)).len ≤ 1 := by
  intro json filled refilled
  exact ⟨rfl, dequeue_firstEntry, by decide⟩

/-! ## Where entries are accounted for -/

namespace EncryptedSpool

def Accounted (s : EncryptedSpool) : Prop :=
  s.totalEnqueued.toNat = s.len + s.totalDelivered.toNat + s.totalDropped.toNat

variable (sha256 : List UInt8 → Vector UInt8 32) (json : SerdeJson)

/-- What the operation counts is what it moves: an enqueue counts a drop only if an entry is
there to drop, a drain by tenant counts what it takes only if all entries can be read, and a
nack never takes back the delivery it follows. -/
def CountsMoves (s : EncryptedSpool) : SpoolOp → Prop
  | .enqueue _ _ _ _ _ => s.totalEnqueued.toNat + 1 < 2 ^ 64 ∧ (s.maxEntries = 0 → s.queue ≠ [])
  | .nack _ _ => False
  | .drainForTenant _ => ∀ e ∈ s.queue, (s.read sha256 json e).isSome
  | _ => True

/-- Entries that are only delivered move from the queue to the counter. -/
theorem accounted_of_moves {n k : Nat} {s s' : EncryptedSpool} (h : s.Accounted)
    (hm : Moves { delivered := n, vanished := k } s s') : s'.Accounted ↔ k = 0 := by
  have hlen : s'.len + n + 0 + k = s.len + 0 + 0 := hm.len
  have henq : s'.totalEnqueued = s.totalEnqueued := hm.totalEnqueued.trans (UInt64.add_zero _)
  have hdrop : s'.totalDropped = s.totalDropped := hm.totalDropped.trans (UInt64.add_zero _)
  have hbound := s.totalEnqueued.toNat_lt
  have hdel : s'.totalDelivered.toNat = s.totalDelivered.toNat + n := by
    have hadd : s'.totalDelivered = s.totalDelivered + UInt64.ofNat n := hm.totalDelivered
    unfold Accounted at h
    rw [hadd, UInt64.toNat_add, UInt64.toNat_ofNat']
    omega
  unfold Accounted at h ⊢
  rw [henq, hdrop, hdel]
  omega

theorem accounted_enqueue_iff {s : EncryptedSpool} (h : s.Accounted)
    (payload destination timestamp : String) (tenantId : Option String) (nonce : Nonce) :
    (s.enqueueWithTenant sha256 json payload destination timestamp tenantId nonce).1.Accounted ↔
      s.totalEnqueued.toNat + 1 < 2 ^ 64 ∧ (s.maxEntries = 0 → s.queue ≠ []) := by
  have hm := s.enqueue_moves sha256 json payload destination timestamp tenantId nonce
  generalize (s.enqueueWithTenant sha256 json payload destination timestamp tenantId nonce).1 =
    s' at hm ⊢
  obtain ⟨hlen, henq, hdel, hdrop, -⟩ := hm
  have hbound := s.totalEnqueued.toNat_lt
  have hempty : s.queue = [] ↔ s.len = 0 := List.length_eq_zero_iff.symm
  have hdel' : s'.totalDelivered = s.totalDelivered := hdel.trans (UInt64.add_zero _)
  unfold Accounted at h ⊢
  rw [henq, hdel', hdrop, UInt64.toNat_add, UInt64.toNat_add, UInt64.toNat_ofNat',
    UInt64.toNat_ofNat', ne_eq, hempty]
  dsimp only at hlen ⊢
  split_ifs at hlen ⊢ <;> omega

/-- A nack takes an entry back that is still counted as delivered. -/
theorem not_accounted_nack {s : EncryptedSpool} (h : s.Accounted) (entry : SpoolEntry)
    (nonce : Nonce) : ¬(s.nack sha256 json entry nonce).1.Accounted := by
  have hmoves := s.nack_moves sha256 json entry nonce
  generalize (s.nack sha256 json entry nonce).1 = s' at hmoves ⊢
  have hbound := s.totalDropped.toNat_lt
  unfold Accounted at h ⊢
  split_ifs at hmoves
  · obtain ⟨hlen, henq, hdel, hdrop, -⟩ := hmoves
    rw [henq, hdel, hdrop, UInt64.toNat_add, UInt64.toNat_add, UInt64.toNat_add]
    simp only [UInt64.toNat_ofNat']
    dsimp only at hlen ⊢
    omega
  · obtain ⟨hlen, henq, hdel, hdrop, -⟩ := hmoves
    rw [henq, hdel, hdrop, UInt64.toNat_add, UInt64.toNat_add, UInt64.toNat_add]
    simp only [UInt64.toNat_ofNat']
    dsimp only at hlen ⊢
    omega

theorem accounted_after_iff {s : EncryptedSpool} (h : s.Accounted) (op : SpoolOp) :
    (s.after sha256 json op).Accounted ↔ s.CountsMoves sha256 json op := by
  have htaken : ∀ {s' : EncryptedSpool}, (∃ n, Moves { delivered := n } s s') → s'.Accounted := by
    rintro s' ⟨n, hn⟩
    exact (accounted_of_moves h hn).mpr rfl
  cases op with
  | enqueue payload destination timestamp tenantId nonce =>
    exact accounted_enqueue_iff sha256 json h payload destination timestamp tenantId nonce
  | dequeue => exact iff_of_true (htaken (s.dequeue_moves sha256 json)) trivial
  | dequeueForTenant tenantId =>
    exact iff_of_true (htaken (s.dequeueForTenant_moves sha256 json tenantId)) trivial
  | nack entry nonce => exact iff_of_false (not_accounted_nack sha256 json h entry nonce) id
  | drainAll => exact iff_of_true (htaken (s.drainAll_moves sha256 json)) trivial
  | drainForTenant tenantId =>
    obtain ⟨n, hn⟩ := s.drainForTenant_moves sha256 json tenantId
    refine (accounted_of_moves h hn).trans ?_
    rw [List.countP_eq_zero]
    change _ ↔ ∀ e ∈ s.queue, (s.read sha256 json e).isSome
    simp only [Option.isNone_iff_eq_none, Option.isSome_iff_ne_none, ne_eq]

/-- A queue that is accounted for is short enough for its length to fit the header. -/
theorem accounted_restore {json : SerdeJson}
    (hheader : ∀ h : SpoolPersistHeader, json.headerFromStr h.text = .ok h) {s t : EncryptedSpool}
    (hs : s.Accounted) (ht : t.Accounted) : (t.restore json s.persist).1.Accounted := by
  rcases restore_persist_cases hheader s t with he | ⟨hcount, he⟩
  · rw [he]
    exact ht
  · have hbound := s.totalEnqueued.toNat_lt
    have hlen : s.header.entryCount.toNat = s.len := by
      unfold Accounted at hs
      exact UInt64.toNat_ofNat_of_lt (show s.len < 2 ^ 64 by omega)
    rw [he]
    change s.totalEnqueued.toNat = (s.queue.filter fun e => e ≠ []).length +
      s.totalDelivered.toNat + s.totalDropped.toNat
    rw [hcount, hlen]
    exact hs

end EncryptedSpool

section

variable (sha256 : List UInt8 → Vector UInt8 32) {json : SerdeJson}
  (hheader : ∀ h : SpoolPersistHeader, json.headerFromStr h.text = .ok h)

include hheader

/-- The counters of all spools add up exactly as long as each operation counts its moves. -/
theorem accounted_iff_countsMoves {ι : Type*} [DecidableEq ι] {key : ι → List UInt8}
    {maxEntries : ι → Nat} {spools : ι → EncryptedSpool}
    (hnew : ∀ i, EncryptedSpool.tryNew (key i) (maxEntries i) = .ok (spools i))
    (ops : List (HostOp ι)) :
    Throughout (Host.step sha256 json) (fun host => ∀ i, (host.spools i).Accounted)
        ⟨spools, []⟩ ops ↔
      Along (Host.step sha256 json)
        (fun host op => ∀ i o, op = HostOp.on i o → (host.spools i).CountsMoves sha256 json o)
        ⟨spools, []⟩ ops := by
  refine Host.throughout_iff_along sha256 json (K := EncryptedSpool.Accounted)
    (Q := EncryptedSpool.Accounted) (fun s hs => hs) ?_ ?_
    (fun s t => EncryptedSpool.accounted_restore hheader) ⟨fun i => ?_, fun data hdata => ?_⟩ ops
  · intro s op hs hop
    exact (s.accounted_after_iff sha256 json hs op).mpr hop
  · intro s op hs hop
    exact (s.accounted_after_iff sha256 json hs op).mp hop
  · obtain ⟨hlen, -, henq, hdel, hdrop⟩ := EncryptedSpool.tryNew_ok (hnew i)
    change (spools i).Accounted
    unfold EncryptedSpool.Accounted
    rw [hlen, henq, hdel, hdrop]
    rfl
  · exact absurd hdata List.not_mem_nil

end

theorem accounted_iff_countsMoves_key :
    Throughout (Host.step zeroDigest (plainJson [firstEntry]))
      (fun host => ∀ i : Bool, (host.spools i).Accounted) ⟨fun _ => keySpool 1, []⟩
      [.on true (.enqueue "a" "siem" "t1" none zeroNonce),
        .on true (.enqueue "b" "siem" "t2" none zeroNonce), .persist true, .on true .dequeue,
        .restore false 0] := by
  refine (accounted_iff_countsMoves zeroDigest (headerFromStr_plainJson _)
    (fun _ => tryNew_key 1) _).mpr ?_
  refine ⟨?_, ?_, ?_, ?_, ?_, trivial⟩ <;> rintro i o h <;> cases h
  · exact ⟨by decide, fun h => absurd h (by decide)⟩
  · exact ⟨by decide, fun h => absurd h (by decide)⟩
  · trivial

/-- An entry delivered, refused and back in the queue is counted twice. -/
theorem accounting_fails :
    let json := plainJson [firstEntry]
    let filled := (keySpool 1).after zeroDigest json (.enqueue "a" "siem" "t1" none zeroNonce)
    let taken := filled.dequeue zeroDigest json
    let back := taken.1.after zeroDigest json (.nack firstEntry zeroNonce)
    EncryptedSpool.tryNew [0x6b, 0x65, 0x79] 1 = .ok (keySpool 1) ∧ taken.2 = some firstEntry ∧
      back.totalEnqueued = 1 ∧ back.len = 1 ∧ back.totalDelivered = 1 ∧ ¬ back.Accounted := by
  intro json filled taken back
  refine ⟨rfl, dequeue_firstEntry, rfl, rfl, rfl, ?_⟩
  change ¬ 1 = 1 + 1 + 0
  decide

end Wardex.Spool
