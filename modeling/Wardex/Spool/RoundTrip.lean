import Wardex.Spool.Capacity
import Wardex.Spool.Plain

/-! A persisted spool comes back as it was, whichever spool with its key restores it. -/

namespace Wardex.Spool

open Wardex.Lib Wardex.Audit

theorem hexPairs_ne_nil {index : Nat} {line bytes : List UInt8} (hne : line ≠ [])
    (h : hexPairs index line = .ok bytes) : bytes ≠ [] := by
  match line with
  | [] => exact absurd rfl hne
  | [_] => cases h
  | a :: b :: rest =>
    rw [hexPairs] at h
    cases hhigh : hexVal a index with
    | error e => rw [hhigh] at h; cases h
    | ok high =>
      cases hlow : hexVal b (index + 1) with
      | error e => rw [hhigh, hlow] at h; cases h
      | ok low =>
        cases hrest : hexPairs (index + 2) rest with
        | error e => rw [hhigh, hlow, hrest] at h; cases h
        | ok more =>
          rw [hhigh, hlow, hrest] at h
          cases h
          exact List.cons_ne_nil _ _

theorem asBytes_ofList_ne_nil {line : List Char} (h : line ≠ []) :
    asBytes (String.ofList line) ≠ [] := by
  intro hnil
  have hchars : fromUtf8 (asBytes (String.ofList line)) =
      fromUtf8 (asBytes (String.ofList [])) := by
    rw [hnil]
    rfl
  rw [fromUtf8_asBytes, fromUtf8_asBytes] at hchars
  exact h (String.ofList_injective (Except.ok.inj hchars))

namespace EncryptedSpool

variable (sha256 : List UInt8 → Vector UInt8 32) (json : SerdeJson)

/-- The spools that operations and restores lead to. A queue holds fewer than 2 ^ 64 entries: its
length is a `usize`. -/
inductive Reachable : EncryptedSpool → Prop where
  | new {key : List UInt8} {maxEntries : Nat} {s : EncryptedSpool}
      (h : tryNew key maxEntries = .ok s) : Reachable s
  | after {s : EncryptedSpool} (hs : Reachable s) (op : SpoolOp)
      (fits : (s.after sha256 json op).queue.length < 2 ^ 64) : Reachable (s.after sha256 json op)
  | restore {s : EncryptedSpool} (hs : Reachable s) (data : List UInt8) :
      Reachable (s.restore json data).1

/-- No entry is empty, so that each one has its line in the file. -/
structure Storable (s : EncryptedSpool) : Prop where
  nonempty : ∀ e ∈ s.queue, e ≠ []
  fits : s.queue.length < 2 ^ 64

theorem spoolEncrypt_ne_nil (data key : List UInt8) (nonce : Nonce) :
    spoolEncrypt sha256 data key nonce ≠ [] := by
  apply List.ne_nil_of_length_pos
  rw [spoolEncrypt, List.length_append, Vector.length_toList]
  omega

theorem mem_queue_dequeue {s : EncryptedSpool} {e : List UInt8}
    (he : e ∈ (s.dequeue sha256 json).1.queue) : e ∈ s.queue := by
  unfold dequeue at he
  split at he
  · exact he
  · rename_i encrypted rest hqueue
    rw [hqueue]
    exact List.mem_cons_of_mem _ he

/-- What an operation puts into the queue is encrypted. -/
theorem mem_queue_after (s : EncryptedSpool) (op : SpoolOp) {e : List UInt8}
    (he : e ∈ (s.after sha256 json op).queue) : e ∈ s.queue ∨ e ≠ [] := by
  cases op with
  | enqueue payload destination timestamp tenantId nonce =>
    obtain he | he : e ∈ (if s.queue.length ≥ s.maxEntries then _ else _ : EncryptedSpool).queue ∨
        e ∈ [spoolEncrypt sha256 _ s.key nonce] := List.mem_append.mp he
    · split_ifs at he
      · exact Or.inl (List.mem_of_mem_tail he)
      · exact Or.inl he
    · rw [List.mem_singleton.mp he]
      exact Or.inr (spoolEncrypt_ne_nil sha256 _ _ nonce)
  | dequeue => exact Or.inl (mem_queue_dequeue sha256 json he)
  | dequeueForTenant tenantId =>
    change e ∈ (s.dequeueForTenant sha256 json tenantId).1.queue at he
    rw [dequeueForTenant_eq] at he
    exact Or.inl (List.mem_of_mem_eraseP he)
  | nack entry nonce =>
    -- an entry given back is encrypted anew, unless its retries are used up
    change e ∈ (s.nack sha256 json entry nonce).1.queue at he
    unfold nack at he
    dsimp only at he
    split_ifs at he
    · exact Or.inl he
    · obtain he | he := List.mem_append.mp he
      · exact Or.inl he
      · rw [List.mem_singleton.mp he]
        exact Or.inr (spoolEncrypt_ne_nil sha256 _ _ nonce)
  | drainAll =>
    change e ∈ (s.drainAll sha256 json).1.queue at he
    left
    fun_induction drainAll sha256 json s with
    | case1 s s' h =>
      rw [show s' = (s.dequeue sha256 json).1 by rw [h]] at he
      exact mem_queue_dequeue sha256 json he
    | case2 s s' entry h ih =>
      have hmem := ih he
      rw [show s' = (s.dequeue sha256 json).1 by rw [h]] at hmem
      exact mem_queue_dequeue sha256 json hmem
  | drainForTenant tenantId =>
    change e ∈ (s.drainForTenant sha256 json tenantId).1.queue at he
    unfold drainForTenant at he
    rw [splitTenant_eq] at he
    exact Or.inl (List.mem_of_mem_filter he)

theorem readEntries_ne_nil {lines : List (List Char)} {queue : List (List UInt8)}
    (h : readEntries lines = .ok queue) : ∀ e ∈ queue, e ≠ [] := by
  induction lines generalizing queue with
  | nil =>
    cases h
    exact fun e he => absurd he List.not_mem_nil
  | cons line rest ih =>
    rw [readEntries] at h
    split_ifs at h with hline
    · exact ih h
    · cases hhex : hexDecode (asBytes (String.ofList line)) with
      | error e => rw [hhex] at h; cases h
      | ok encrypted =>
        cases hrest : readEntries rest with
        | error e => rw [hhex, hrest] at h; cases h
        | ok more =>
          rw [hhex, hrest] at h
          cases h
          refine List.forall_mem_cons.mpr ⟨?_, ih hrest⟩
          unfold hexDecode at hhex
          split_ifs at hhex
          exact hexPairs_ne_nil (asBytes_ofList_ne_nil hline) hhex

theorem storable_readPersisted {data : List UInt8} {header : SpoolPersistHeader}
    {queue : List (List UInt8)} (h : readPersisted json data = .ok (header, queue)) :
    (∀ e ∈ queue, e ≠ []) ∧ queue.length < 2 ^ 64 := by
  unfold readPersisted at h
  cases htext : fromUtf8 data with
  | error e => rw [htext] at h; cases h
  | ok text =>
    rw [htext] at h
    cases hlines : lines text.toList with
    | nil =>
      dsimp only [Except.mapError, bind, Except.bind] at h
      rw [hlines] at h
      cases h
    | cons headerLine rest =>
      dsimp only [Except.mapError, bind, Except.bind] at h
      rw [hlines] at h
      dsimp only at h
      cases hheader : json.headerFromStr (String.ofList headerLine) with
      | error e => rw [hheader] at h; cases h
      | ok header' =>
        cases hqueue : readEntries rest with
        | error e => rw [hheader, hqueue] at h; cases h
        | ok queue' =>
          rw [hheader, hqueue] at h
          change (if queue'.length ≠ header'.entryCount.toNat then _ else _) = _ at h
          split_ifs at h with hcount
          cases h
          -- the count of the header, which the entries must have, is a u64
          refine ⟨readEntries_ne_nil hqueue, ?_⟩
          rw [not_not.mp hcount]
          exact UInt64.toNat_lt _

theorem storable_of_reachable {s : EncryptedSpool} (h : Reachable sha256 json s) : Storable s := by
  induction h with
  | new h =>
    have hlen := (tryNew_ok h).1
    refine ⟨fun e he => ?_, ?_⟩
    · rw [List.length_eq_zero_iff.mp hlen] at he
      exact absurd he List.not_mem_nil
    · exact Nat.lt_of_le_of_lt (Nat.le_of_eq hlen) (by decide)
  | after hs op fits ih =>
    refine ⟨fun e he => ?_, fits⟩
    obtain he | he := mem_queue_after sha256 json _ op he
    · exact ih.nonempty e he
    · exact he
  | restore hs data ih =>
    unfold EncryptedSpool.restore
    split
    · exact ih
    · rename_i header queue hread
      obtain ⟨hne, hfits⟩ := storable_readPersisted json hread
      exact ⟨hne, hfits⟩

/-- The spool `t'` holds the entries of `s` and has its counters: it shows and yields the same. -/
structure TakesOver (s t t' : EncryptedSpool) : Prop where
  plain : t'.plain sha256 json =
    { s.plain sha256 json with maxEntries := t.maxEntries, maxRetries := t.maxRetries }
  yields : (t'.drainAll sha256 json).2 = (s.drainAll sha256 json).2
  key : t'.key = t.key

variable {sha256 json}

/-- Any spool with the key restores a reachable spool's bytes, and a spool that does not succeed in
restoring some bytes is left as it was. -/
theorem persist_restore (hheader : ∀ h : SpoolPersistHeader, json.headerFromStr h.text = .ok h)
    {s t : EncryptedSpool} (hs : Reachable sha256 json s) (hkey : t.key = s.key) :
    (t.restore json s.persist).2 = .ok s.len ∧
      TakesOver sha256 json s t (t.restore json s.persist).1 ∧
      ∀ data message, (t.restore json data).2 = .error message → (t.restore json data).1 = t := by
  obtain ⟨hne, hfits⟩ := storable_of_reachable sha256 json hs
  rw [EncryptedSpool.restore_persist hheader s t hne hfits]
  have hread : (t.resumed s.header s.queue).read sha256 json = s.read sha256 json := by
    funext encrypted
    exact congrArg (fun key => json.entryFromSlice (spoolDecrypt sha256 encrypted key)) hkey
  have hplain : (t.resumed s.header s.queue).plain sha256 json =
      { s.plain sha256 json with maxEntries := t.maxEntries, maxRetries := t.maxRetries } := by
    unfold EncryptedSpool.plain
    rw [hread]
    rfl
  refine ⟨rfl, ⟨hplain, ?_, rfl⟩, fun data message h => restore_error h⟩
  have hyields (x : EncryptedSpool) :
      (x.drainAll sha256 json).2 = (x.plain sha256 json).drainAll.2 :=
    congrArg Prod.snd (x.shown_drainAll sha256 json)
  rw [hyields, hyields, hplain]
  rfl

end EncryptedSpool

/-- A spool that holds the first entry. -/
def filledSpool : EncryptedSpool :=
  (keySpool 8).after zeroDigest (plainJson [firstEntry]) (.enqueue "a" "siem" "t1" none zeroNonce)

/-- A spool with room for one entry takes over a larger spool. -/
theorem persist_restore_smaller :
    ((keySpool 1).restore (plainJson [firstEntry]) filledSpool.persist).2 =
      .ok filledSpool.len := by
  have hreachable : EncryptedSpool.Reachable zeroDigest (plainJson [firstEntry]) filledSpool :=
    .after (.new (tryNew_key 8)) _ (by change 1 < 2 ^ 64; decide)
  have hkey : (keySpool 1).key = filledSpool.key := rfl
  exact (EncryptedSpool.persist_restore (headerFromStr_plainJson [firstEntry]) hreachable hkey).1

end Wardex.Spool
