import Mathlib.Data.List.Nodup
import Mathlib.Data.List.Range
import Wardex.Audit.Chain
import Wardex.Lib.Delimited

/-! What the hash of the last record says about the whole log: two logs that verify and end
with one hash.  Sequence numbers and checkpoints under appends and retentions; a log does not
remember the records it has dropped, so the run keeps them beside it. -/

namespace Wardex.Audit

open Wardex.Lib

section

/-! ## Reading a payload back -/

theorem payload_toList (previousHash category summary : String) :
    (payload previousHash category summary).toList =
      previousHash.toList ++ '|' :: (category.toList ++ '|' :: summary.toList) := by
  simp [payload]

/-- How many separators a category brings into the payload by itself. -/
def AuditRecord.separators (r : AuditRecord) : Nat := r.category.toList.count '|'

theorem separator_notMem_genesis : '|' ∉ genesis.toList := by
  unfold genesis
  rw [String.toList_ofList, List.mem_replicate]
  exact fun h => absurd h.2 (by decide)

theorem separator_notMem_hexEncode (bytes : List UInt8) : '|' ∉ (hexEncode bytes).toList :=
  notMem_hexEncode (by decide) bytes

theorem fields_of_payload {p p' c c' s s' : String} (h : payload p c s = payload p' c' s')
    (hp : '|' ∉ p.toList) (hp' : '|' ∉ p'.toList) (hc : c.toList.count '|' = c'.toList.count '|') :
    p = p' ∧ c = c' ∧ s = s' := by
  have hlist := congrArg String.toList h
  rw [payload_toList, payload_toList] at hlist
  obtain ⟨hprev, hrest⟩ := fields_unique_of_not_mem hlist hp hp'
  obtain ⟨hcategory, hsummary⟩ := fields_unique hrest hc
  exact ⟨String.toList_inj.mp hprev, String.toList_inj.mp hcategory,
    String.toList_inj.mp hsummary⟩

/-! ## Two logs with one head -/

variable (sha256 : List UInt8 → List UInt8)

/-- The fields that a record is made for. -/
def AuditRecord.fields (r : AuditRecord) : String × String := (r.category, r.summary)

namespace AuditLog

theorem separator_notMem_prev {log : AuditLog} (h : log.verifyChain sha256 = .ok ()) :
    ∀ r ∈ log.records, '|' ∉ r.previousHash.toList := by
  intro r hr
  have hlinked := (verifyChain_ok_iff sha256 log).mp h
  exact hlinked.forall_prev (Q := fun p => '|' ∉ p.toList) separator_notMem_genesis
    (fun _ _ => separator_notMem_hexEncode _) r.block (List.mem_map_of_mem hr)

theorem tip_blocks (log : AuditLog) :
    Block.tip genesis log.blocks = (log.records.getLast?.map AuditRecord.currentHash).getD
      genesis := by
  rw [Block.tip, blocks, List.getLast?_map]
  cases log.records.getLast? <;> rfl

/-- Two records that hash to one digest and bring in equally many separators are one. -/
theorem block_of_hash_eq {log log' : AuditLog}
    (hinj : Set.InjOn sha256 (log.hashInputs ∪ log'.hashInputs))
    (hok : log.verifyChain sha256 = .ok ()) (hok' : log'.verifyChain sha256 = .ok ())
    {r r' : AuditRecord} (hr : r ∈ log.records) (hr' : r' ∈ log'.records)
    (hsep : r.separators = r'.separators)
    (hhash : link sha256 r.previousHash r.fields = link sha256 r'.previousHash r'.fields) :
    r.previousHash = r'.previousHash ∧ r.fields = r'.fields := by
  have hpayload := asBytes_injective (hinj (Or.inl ⟨r, hr, rfl⟩) (Or.inr ⟨r', hr', rfl⟩)
    (hexEncode_injective hhash))
  obtain ⟨hprev, hcategory, hsummary⟩ := fields_of_payload hpayload
    (separator_notMem_prev sha256 hok r hr) (separator_notMem_prev sha256 hok' r' hr') hsep
  exact ⟨hprev, Prod.ext hcategory hsummary⟩

end AuditLog

/-- **What the head hash pins down.**  Two logs of one length that both verify and end with
the same hash agree on every category and summary if and only if their categories bring in
equally many separators, record by record. -/
theorem fields_eq_iff_separators_eq (log log' : AuditLog)
    (hinj : Set.InjOn sha256 (log.hashInputs ∪ log'.hashInputs))
    (hok : log.verifyChain sha256 = .ok ()) (hok' : log'.verifyChain sha256 = .ok ())
    (hhead : log.records.getLast?.map AuditRecord.currentHash =
      log'.records.getLast?.map AuditRecord.currentHash) :
    log.records.map AuditRecord.fields = log'.records.map AuditRecord.fields ↔
      log.records.map AuditRecord.separators = log'.records.map AuditRecord.separators := by
  constructor
  · intro h
    have hcount := congrArg (List.map fun f : String × String => f.1.toList.count '|') h
    rwa [List.map_map, List.map_map] at hcount
  · intro h
    have hkey : log.blocks.map (fun b => b.body.1.toList.count '|') =
        log'.blocks.map fun b => b.body.1.toList.count '|' := by
      rwa [AuditLog.blocks, AuditLog.blocks, List.map_map, List.map_map]
    have hread : ∀ b ∈ log.blocks, ∀ b' ∈ log'.blocks,
        b.body.1.toList.count '|' = b'.body.1.toList.count '|' →
        link sha256 b.prev b.body = link sha256 b'.prev b'.body →
        b.prev = b'.prev ∧ b.body = b'.body := by
      intro b hb b' hb' hsep hhash
      obtain ⟨r, hr, rfl⟩ := List.mem_map.mp hb
      obtain ⟨r', hr', rfl⟩ := List.mem_map.mp hb'
      exact AuditLog.block_of_hash_eq sha256 hinj hok hok' hr hr' hsep hhash
    have htip : Block.tip genesis log.blocks = Block.tip genesis log'.blocks := by
      rw [AuditLog.tip_blocks, AuditLog.tip_blocks, hhead]
    have hblocks := (Block.Linked.eq_of_tip _ ((AuditLog.verifyChain_ok_iff sha256 log).mp hok)
      ((AuditLog.verifyChain_ok_iff sha256 log').mp hok') hread hkey htip).2
    have hbodies := congrArg (List.map Block.body) hblocks
    rwa [AuditLog.blocks, AuditLog.blocks, List.map_map, List.map_map] at hbodies

/-- The log that the calls of `record` with these fields leave behind. -/
def recorded (entries : List (String × String)) : AuditLog :=
  entries.foldl (fun log e => log.record sha256 e.1 e.2) AuditLog.new

theorem fields_eq_iff_separators_eq_refl :
    (recorded id [("boot", "a"), ("login", "b|c")]).records.map AuditRecord.fields =
      (recorded id [("boot", "a"), ("login", "b|c")]).records.map AuditRecord.fields :=
  (fields_eq_iff_separators_eq id (recorded id [("boot", "a"), ("login", "b|c")])
    (recorded id [("boot", "a"), ("login", "b|c")]) (Set.injOn_id _) (by decide +kernel)
    (by decide +kernel) rfl).mpr rfl

/-- The same text split at another place: both logs verify and end with one hash. -/
theorem fields_ambiguous :
    Function.Injective (id : List UInt8 → List UInt8) ∧
      (recorded id [("login", "user|root")]).verifyChain id = .ok () ∧
      (recorded id [("login|user", "root")]).verifyChain id = .ok () ∧
      (recorded id [("login", "user|root")]).records.length =
        (recorded id [("login|user", "root")]).records.length ∧
      (recorded id [("login", "user|root")]).records.getLast?.map AuditRecord.currentHash =
        (recorded id [("login|user", "root")]).records.getLast?.map AuditRecord.currentHash ∧
      (recorded id [("login", "user|root")]).records.map AuditRecord.fields ≠
        (recorded id [("login|user", "root")]).records.map AuditRecord.fields :=
  ⟨Function.injective_id, by decide +kernel, by decide +kernel, by decide +kernel,
    by decide +kernel, by decide +kernel⟩

end

/-! ## Sequence numbers and checkpoints -/

variable (sha256 : List UInt8 → List UInt8)

/-- The log and every record it has ever made, as it was made. -/
structure AuditHistory where
  log : AuditLog
  made : List AuditRecord

namespace AuditHistory

def new (interval : Nat) (hmacKey : String) : AuditHistory where
  log := (AuditLog.withCheckpointInterval interval).setHmacKey hmacKey
  made := []

def step (s : AuditHistory) (op : AuditOp) : AuditHistory where
  log := s.log.after sha256 op
  made := match op with
    | .record category summary =>
      s.made ++ (s.log.record sha256 category summary).records.getLast?.toList
    | .applyRetention _ => s.made

structure Numbered (s : AuditHistory) : Prop where
  increasing : s.log.records.Pairwise fun r r' => r.sequence < r'.sequence
  unique : (s.made.map AuditRecord.sequence).Nodup
  checkpoints : ∀ cp ∈ s.log.checkpoints, ∀ r ∈ s.log.records,
    cp.afterSequence = r.sequence → cp.cumulativeHash = r.currentHash

/-- A record is only made while the log still has all its records. -/
def AppendsUntrimmed (s : AuditHistory) : AuditOp → Prop
  | .record _ _ => s.log.records.length = s.made.length
  | .applyRetention _ => True

/-- What a checkpoint and a sequence number refer to, and retention does not change. -/
def position (r : AuditRecord) : Nat × String := (r.sequence, r.currentHash)

structure Inv (s : AuditHistory) : Prop where
  numbered : s.made.map AuditRecord.sequence = List.range' 1 s.made.length
  kept : s.log.records.map position <:+ s.made.map position
  checkpoints : ∀ cp ∈ s.log.checkpoints,
    (cp.afterSequence, cp.cumulativeHash) ∈ s.made.map position

theorem inv_new (interval : Nat) (hmacKey : String) : (new interval hmacKey).Inv where
  numbered := rfl
  kept := List.suffix_refl _
  checkpoints := by simp [new, AuditLog.setHmacKey, AuditLog.withCheckpointInterval]

variable {s : AuditHistory}

/-- The record that a call of `record` adds. -/
def nextRecord (log : AuditLog) (category summary : String) : AuditRecord where
  sequence := log.records.length + 1
  category := category
  summary := summary
  previousHash := log.previousHash
  currentHash := link sha256 log.previousHash (category, summary)

theorem record_records (log : AuditLog) (category summary : String) :
    (log.record sha256 category summary).records =
      log.records ++ [nextRecord sha256 log category summary] := by
  unfold AuditLog.record
  dsimp only
  split_ifs <;> rfl

/-- A checkpoint is taken right after a record and at that record's position. -/
theorem mem_record_checkpoints {log : AuditLog} {category summary : String} {cp : AuditCheckpoint}
    (h : cp ∈ (log.record sha256 category summary).checkpoints) :
    cp ∈ log.checkpoints ∨ (cp.afterSequence, cp.cumulativeHash) =
      position (nextRecord sha256 log category summary) := by
  unfold AuditLog.record at h
  dsimp only at h
  split_ifs at h
  · simp only [AuditLog.insertCheckpoint, List.mem_append, List.mem_singleton] at h
    rcases h with h | rfl
    · exact Or.inl h
    · refine Or.inr (Prod.ext ?_ rfl)
      simp [position, nextRecord]
  · exact Or.inl h

theorem step_record (category summary : String) :
    s.step sha256 (.record category summary) =
      { log := s.log.record sha256 category summary
        made := s.made ++ [nextRecord sha256 s.log category summary] } := by
  simp [step, AuditLog.after, record_records]

theorem applyRetention_frame (log : AuditLog) (maxRecords : Nat) :
    ((log.applyRetention maxRecords).1.records.map position <:+ log.records.map position) ∧
      (log.applyRetention maxRecords).1.checkpoints = log.checkpoints := by
  rcases log.applyRetention_cases maxRecords with
    ⟨-, he⟩ | ⟨-, -, kept, first, rest, hrecords, -, he⟩
  · rw [he]
    exact ⟨List.suffix_refl _, rfl⟩
  · rw [he, hrecords, List.map_append]
    exact ⟨⟨kept.map position, rfl⟩, rfl⟩

theorem Inv.step (h : s.Inv) (op : AuditOp) (hop : s.AppendsUntrimmed op) :
    (s.step sha256 op).Inv := by
  cases op with
  | record category summary =>
    rw [step_record]
    have hlength : s.log.records.length = s.made.length := hop
    refine ⟨?_, ?_, ?_⟩
    · simp only [List.map_append, h.numbered, List.map_cons, List.map_nil, List.length_append,
        List.length_singleton, List.range'_concat, nextRecord, hlength, Nat.one_mul,
        Nat.add_comm 1]
    · obtain ⟨dropped, hdropped⟩ := h.kept
      refine ⟨dropped, ?_⟩
      simp only [record_records, List.map_append, ← hdropped, List.append_assoc]
    · intro cp hcp
      rw [List.map_append]
      rcases mem_record_checkpoints sha256 hcp with hold | hnew
      · exact List.mem_append_left _ (h.checkpoints cp hold)
      · rw [hnew]
        exact List.mem_append_right _ (List.mem_map_of_mem (List.mem_singleton_self _))
  | applyRetention maxRecords =>
    obtain ⟨hkept, hcheckpoints⟩ := applyRetention_frame s.log maxRecords
    exact ⟨h.numbered, hkept.trans h.kept, fun cp hcp => h.checkpoints cp (hcheckpoints ▸ hcp)⟩

theorem Inv.nodup (h : s.Inv) : (s.made.map AuditRecord.sequence).Nodup :=
  h.numbered ▸ List.nodup_range'

theorem Inv.sequences (h : s.Inv) :
    s.log.records.map AuditRecord.sequence <:+ s.made.map AuditRecord.sequence := by
  have hsuffix := h.kept.map Prod.fst
  rwa [List.map_map, List.map_map] at hsuffix

theorem Inv.numbered_of (h : s.Inv) : s.Numbered := by
  refine ⟨?_, h.nodup, ?_⟩
  · have hsorted : (s.made.map AuditRecord.sequence).Pairwise (· < ·) := by
      rw [h.numbered]
      exact List.pairwise_lt_range'
    exact List.pairwise_map.mp (hsorted.sublist h.sequences.sublist)
  · intro cp hcp r hr hsequence
    obtain ⟨made, hmade, hposition⟩ := List.mem_map.mp (h.checkpoints cp hcp)
    obtain ⟨made', hmade', hposition'⟩ :=
      List.mem_map.mp (h.kept.subset (List.mem_map_of_mem hr))
    have hnumber : made.sequence = made'.sequence :=
      (congrArg Prod.fst hposition).trans
        (hsequence.trans (congrArg Prod.fst hposition').symm)
    -- one number, so one record
    obtain rfl := List.inj_on_of_nodup_map h.nodup hmade hmade' hnumber
    exact (congrArg Prod.snd hposition).symm.trans (congrArg Prod.snd hposition')

/-- Once records were dropped, the next number has been given out before. -/
theorem Inv.appendsUntrimmed (h : s.Inv) {op : AuditOp}
    (hnumbered : (s.step sha256 op).Numbered) : s.AppendsUntrimmed op := by
  cases op with
  | applyRetention => trivial
  | record category summary =>
    rw [step_record] at hnumbered
    have hle : s.log.records.length ≤ s.made.length := by
      simpa using h.kept.length_le
    refine le_antisymm hle (not_lt.mp fun hlt => ?_)
    have hused : s.log.records.length + 1 ∈ s.made.map AuditRecord.sequence := by
      rw [h.numbered, List.mem_range'_1]
      omega
    have hunique := hnumbered.unique
    rw [List.map_append] at hunique
    exact (List.nodup_append'.mp hunique).2.2 hused (List.mem_singleton_self _)

end AuditHistory

/-- **Numbering.**  Over any sequence of appends and retentions, the retained sequence numbers
increase, no number is given to two records, and every checkpoint carries the hash of the
record it names, in every state of the run, if and only if no record is made after a retention
that dropped some. -/
theorem numbered_iff_appendsUntrimmed (interval : Nat) (hmacKey : String) (ops : List AuditOp) :
    Throughout (AuditHistory.step sha256) AuditHistory.Numbered (.new interval hmacKey) ops ↔
      Along (AuditHistory.step sha256) AuditHistory.AppendsUntrimmed (.new interval hmacKey) ops :=
  throughout_iff_along (fun _ op h hop => h.step sha256 op hop) (fun _ h => h.numbered_of)
    (fun _ _ h => h.appendsUntrimmed sha256) (AuditHistory.inv_new interval hmacKey)

/-- Three records, of which a retention keeps two, and a fourth one: it gets the number 3
again. -/
theorem sequence_reused :
    ¬(run (AuditHistory.step id) (.new 0 "")
      [.record "a" "1", .record "a" "2", .record "a" "3", .applyRetention 2,
        .record "a" "4"]).Numbered := by
  intro h
  have hincreasing := h.increasing
  revert hincreasing
  decide +kernel

end Wardex.Audit
