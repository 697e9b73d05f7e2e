import Mathlib.Data.Set.Function
import Mathlib.Tactic.SplitIfs
import Wardex.Audit.Log
import Wardex.Lib.Run

/-! When the chain of an audit log verifies, over every sequence of appends and
retentions. -/

namespace Wardex.Audit

open Wardex.Lib

/-! ## Encodings -/

theorem digitChar_inj {m n : Nat} (hm : m < 16) (hn : n < 16) (h : m.digitChar = n.digitChar) :
    m = n := by
  have hall : ∀ i j : Fin 16, i.val.digitChar = j.val.digitChar → i = j := by decide
  exact congrArg Fin.val (hall ⟨m, hm⟩ ⟨n, hn⟩ h)

theorem hexEncode_injective : Function.Injective hexEncode := by
  intro as bs h
  have hlist := String.ofList_injective h
  clear h
  induction as generalizing bs with
  | nil =>
    cases bs with
    | nil => rfl
    | cons b bs => simp at hlist
  | cons a as ih =>
    cases bs with
    | nil => simp at hlist
    | cons b bs =>
      simp only [List.flatMap_cons, List.cons_append, List.nil_append, List.cons.injEq] at hlist
      obtain ⟨hhigh, hlow, hrest⟩ := hlist
      have ha := a.toNat_lt
      have hb := b.toNat_lt
      have hdiv := digitChar_inj (by omega) (by omega) hhigh
      have hmod := digitChar_inj (by omega) (by omega) hlow
      rw [ih hrest, UInt8.toNat_inj.mp (show a.toNat = b.toNat by omega)]

theorem notMem_hexEncode {c : Char} (hdigit : ∀ n : Fin 16, n.val.digitChar ≠ c)
    (bytes : List UInt8) : c ∉ (hexEncode bytes).toList := by
  simp only [hexEncode, String.toList_ofList, List.mem_flatMap, List.mem_cons, List.not_mem_nil,
    or_false, not_exists, not_and, not_or]
  intro b _
  have hb := b.toNat_lt
  exact ⟨(hdigit ⟨b.toNat / 16, by omega⟩).symm, (hdigit ⟨b.toNat % 16, by omega⟩).symm⟩

theorem asBytes_injective : Function.Injective asBytes := by
  intro s t h
  exact String.toByteArray_inj.mp (ByteArray.ext (Array.toList_inj.mp h))

theorem payload_inj {p q category summary : String}
    (h : payload p category summary = payload q category summary) : p = q := by
  unfold payload at h
  simpa only [String.append_left_inj] using h

/-! ## The log as a hash chain -/

variable (sha256 : List UInt8 → List UInt8)

def link (previousHash : String) (body : String × String) : String :=
  sha256Hex sha256 (asBytes (payload previousHash body.1 body.2))

def AuditRecord.block (r : AuditRecord) : Block String (String × String) where
  prev := r.previousHash
  body := (r.category, r.summary)
  digest := r.currentHash

namespace AuditLog

def blocks (log : AuditLog) : List (Block String (String × String)) :=
  log.records.map AuditRecord.block

theorem verifyRecords_ok_iff (p : String) (records : List AuditRecord) :
    verifyRecords sha256 p records = .ok () ↔
      Block.Linked (link sha256) p (records.map AuditRecord.block) := by
  induction records generalizing p with
  | nil => exact iff_of_true rfl trivial
  | cons r rest ih =>
    rw [verifyRecords, List.map_cons, Block.Linked]
    dsimp only
    split_ifs with hprev hhash
    · exact iff_of_false (by simp) fun h => hprev h.1
    · exact iff_of_false (by simp) fun h => hhash h.2.1
    · rw [ih]
      exact ⟨fun h => ⟨not_not.mp hprev, not_not.mp hhash, h⟩, fun h => h.2.2⟩

theorem verifyChain_ok_iff (log : AuditLog) :
    log.verifyChain sha256 = .ok () ↔ Block.Linked (link sha256) genesis log.blocks :=
  verifyRecords_ok_iff sha256 genesis log.records

end AuditLog

/-! ## Operations -/

inductive AuditOp where
  | record (category summary : String)
  | applyRetention (maxRecords : Nat)

namespace AuditLog

def after (log : AuditLog) : AuditOp → AuditLog
  | .record category summary => log.record sha256 category summary
  | .applyRetention maxRecords => (log.applyRetention maxRecords).1

/-- The running hash is the one the chain ends with. -/
def Tracks (log : AuditLog) : Prop := log.previousHash = Block.tip genesis log.blocks

/-- A retention that trims finds the new first record already linked to the genesis hash. -/
def KeepsHead (log : AuditLog) : AuditOp → Prop
  | .record _ _ => True
  | .applyRetention maxRecords => 0 < maxRecords → maxRecords < log.records.length →
      ∀ r, log.records[log.records.length - maxRecords]? = some r → r.previousHash = genesis

/-- The byte strings that hashing and verifying the log feed to SHA-256. -/
def hashInputs (log : AuditLog) : Set (List UInt8) :=
  {x | ∃ r ∈ log.records, x = asBytes (payload r.previousHash r.category r.summary)}

/-- The byte strings hashed in all states of a run. -/
def runInputs (log : AuditLog) (ops : List AuditOp) : Set (List UInt8) :=
  {x | ∃ as bs, ops = as ++ bs ∧ x ∈ (run (after sha256) log as).hashInputs}

theorem along_hashInputs (log : AuditLog) (ops : List AuditOp) :
    Along (after sha256) (fun l op => l.hashInputs ⊆ log.runInputs sha256 ops ∧
      (l.after sha256 op).hashInputs ⊆ log.runInputs sha256 ops) log ops := by
  refine along_iff.mpr fun as op bs he => ⟨fun x hx => ⟨as, op :: bs, he, hx⟩, ?_⟩
  intro x hx
  refine ⟨as ++ [op], bs, by rw [he, List.append_assoc, List.singleton_append], ?_⟩
  rwa [run_append]

theorem record_blocks (log : AuditLog) (category summary : String) :
    (log.record sha256 category summary).blocks = log.blocks ++
      [{ prev := log.previousHash, body := (category, summary),
         digest := link sha256 log.previousHash (category, summary) }] := by
  unfold record
  dsimp only
  split_ifs <;> simp [blocks, insertCheckpoint, AuditRecord.block, link]

theorem record_previousHash (log : AuditLog) (category summary : String) :
    (log.record sha256 category summary).previousHash =
      link sha256 log.previousHash (category, summary) := by
  unfold record
  dsimp only
  split_ifs <;> rfl

/-- A retention either trims nothing or relinks the first of the records it keeps. -/
theorem applyRetention_cases (log : AuditLog) (maxRecords : Nat) :
    (¬(0 < maxRecords ∧ maxRecords < log.records.length) ∧
      (log.applyRetention maxRecords).1 = log) ∨
    (0 < maxRecords ∧ maxRecords < log.records.length ∧ ∃ kept first rest,
      log.records = kept ++ first :: rest ∧
      log.records[log.records.length - maxRecords]? = some first ∧
      (log.applyRetention maxRecords).1 = { log with
        records := { first with previousHash := genesis } :: rest
        previousHash := Block.tip genesis ((first :: rest).map AuditRecord.block) }) := by
  unfold applyRetention
  split_ifs with h
  · exact Or.inl ⟨by omega, rfl⟩
  · right
    refine ⟨by omega, by omega, ?_⟩
    have hlt : log.records.length - maxRecords < log.records.length := by omega
    have hdrop := List.drop_eq_getElem_cons hlt
    refine ⟨log.records.take (log.records.length - maxRecords), _, _,
      (List.take_append_drop _ _).symm.trans (congrArg _ hdrop),
      List.getElem?_eq_getElem hlt, ?_⟩
    simp only [hdrop]
    congr 1
    generalize log.records.drop (log.records.length - maxRecords + 1) = rest
    rw [Block.tip]
    cases rest with
    | nil => rfl
    | cons r rest =>
      rw [List.getLast?_cons_cons, List.map_cons, List.map_cons, List.getLast?_cons_cons,
        ← List.map_cons, List.getLast?_map]
      cases (r :: rest).getLast? <;> rfl

theorem tracks_withCheckpointInterval (interval : Nat) :
    (withCheckpointInterval interval).Tracks := rfl

theorem Tracks.step {log : AuditLog} (h : log.Tracks) (op : AuditOp) :
    (log.after sha256 op).Tracks := by
  cases op with
  | record category summary =>
    rw [Tracks, after, record_previousHash, record_blocks, Block.tip_append]
    rfl
  | applyRetention maxRecords =>
    rw [after]
    rcases log.applyRetention_cases maxRecords with ⟨-, he⟩ | ⟨-, -, _, first, rest, -, -, he⟩ <;>
      rw [he]
    · exact h
    · simp only [Tracks, blocks, List.map_cons, Block.tip_cons]
      rfl

theorem Linked.record {log : AuditLog} (h : log.Tracks)
    (hl : Block.Linked (link sha256) genesis log.blocks) (category summary : String) :
    Block.Linked (link sha256) genesis (log.record sha256 category summary).blocks := by
  rw [record_blocks, Block.Linked.append]
  exact ⟨hl, h, rfl, trivial⟩

/-- A retention keeps a linked log linked exactly where the hash of the new first record
does not tell its old predecessor from the genesis hash. -/
theorem linked_applyRetention_iff {log : AuditLog}
    (hl : Block.Linked (link sha256) genesis log.blocks) {kept rest : List AuditRecord}
    {first : AuditRecord} (hrecords : log.records = kept ++ first :: rest) :
    Block.Linked (link sha256) genesis
        (({ first with previousHash := genesis } :: rest).map AuditRecord.block) ↔
      link sha256 first.previousHash (first.category, first.summary) =
        link sha256 genesis (first.category, first.summary) := by
  have hsplit : log.blocks = kept.map AuditRecord.block ++
      first.block :: rest.map AuditRecord.block := by
    rw [blocks, hrecords, List.map_append, List.map_cons]
  rw [hsplit, Block.Linked.append] at hl
  have hp : first.previousHash = Block.tip genesis (kept.map AuditRecord.block) := hl.2.1
  rw [hp]
  exact Block.linked_relink hl.2

/-- With a retention that trims, a chain that still verifies was linked to the genesis hash
at the cut. -/
theorem keepsHead_of_verifies {inputs : Set (List UInt8)} (hinj : Set.InjOn sha256 inputs)
    {log : AuditLog} (op : AuditOp) (hin : log.hashInputs ⊆ inputs)
    (hin' : (log.after sha256 op).hashInputs ⊆ inputs)
    (hok : log.verifyChain sha256 = .ok ())
    (hok' : (log.after sha256 op).verifyChain sha256 = .ok ()) : log.KeepsHead op := by
  cases op with
  | record => trivial
  | applyRetention maxRecords =>
    intro hpos hlt r hr
    rw [after] at hin' hok'
    rcases log.applyRetention_cases maxRecords with
      ⟨hno, -⟩ | ⟨-, -, kept, first, rest, hrecords, hhead, he⟩
    · exact absurd ⟨hpos, hlt⟩ hno
    obtain rfl : first = r := Option.some.inj (hhead.symm.trans hr)
    rw [he, verifyChain_ok_iff] at hok'
    have hcollide := (linked_applyRetention_iff sha256
      ((verifyChain_ok_iff sha256 log).mp hok) hrecords).mp hok'
    -- both payloads are among the strings hashed in this run
    have hold : asBytes (payload first.previousHash first.category first.summary) ∈ inputs :=
      hin ⟨first, by rw [hrecords]; simp, rfl⟩
    have hnew : asBytes (payload genesis first.category first.summary) ∈ inputs := by
      refine hin' ⟨{ first with previousHash := genesis }, ?_, rfl⟩
      rw [he]
      exact List.mem_cons_self ..
    exact payload_inj (asBytes_injective (hinj hold hnew (hexEncode_injective hcollide)))

/-- One step of a linked log whose retention, if any, keeps the head. -/
theorem verifies_step {log : AuditLog} (op : AuditOp)
    (h : log.Tracks ∧ log.verifyChain sha256 = .ok ()) (hop : log.KeepsHead op) :
    (log.after sha256 op).Tracks ∧ (log.after sha256 op).verifyChain sha256 = .ok () := by
  obtain ⟨ht, hok⟩ := h
  refine ⟨ht.step sha256 op, ?_⟩
  rw [verifyChain_ok_iff] at hok ⊢
  cases op with
  | record category summary => exact Linked.record sha256 ht hok category summary
  | applyRetention maxRecords =>
    rw [after]
    rcases log.applyRetention_cases maxRecords with
      ⟨-, he⟩ | ⟨hpos, hlt, kept, first, rest, hrecords, hhead, he⟩
    · rwa [he]
    · rw [he]
      refine (linked_applyRetention_iff sha256 hok hrecords).mpr ?_
      rw [hop hpos hlt first hhead]

end AuditLog

/-- **The audit chain under retention.**  For a digest that is injective on the byte
strings hashed in the run, the chain verifies in every state of the run if and only if each
retention that trims finds the new first record already linked to the genesis hash. -/
theorem verifyChain_iff_keepsHead (interval : Nat) (ops : List AuditOp)
    (hinj : Set.InjOn sha256 ((AuditLog.withCheckpointInterval interval).runInputs sha256 ops)) :
    Throughout (AuditLog.after sha256) (fun log => log.verifyChain sha256 = .ok ())
        (.withCheckpointInterval interval) ops ↔
      Along (AuditLog.after sha256) AuditLog.KeepsHead (.withCheckpointInterval interval) ops := by
  constructor
  · intro ht
    refine along_of_throughout (I := fun _ => True) (fun _ _ _ _ => trivial) ?_ trivial
      (AuditLog.along_hashInputs sha256 _ ops) ht
    intro log op _ hin hok hok'
    exact AuditLog.keepsHead_of_verifies sha256 hinj op hin.1 hin.2 hok hok'
  · intro ha
    exact throughout_of_invariant
      (I := fun log => log.Tracks ∧ log.verifyChain sha256 = .ok ())
      (fun log op h hop => AuditLog.verifies_step sha256 op h hop) (fun _ h => h.2)
      ⟨AuditLog.tracks_withCheckpointInterval interval, rfl⟩ ha

/-- The identity is injective, and without retention two records verify. -/
theorem verifyChain_iff_keepsHead_two :
    Throughout (AuditLog.after id) (fun log => log.verifyChain id = .ok ())
      (.withCheckpointInterval 1) [.record "boot" "a", .record "boot" "b"] :=
  (verifyChain_iff_keepsHead id 1 _ (Set.injOn_id _)).mpr ⟨trivial, trivial, trivial⟩

/-- Two records, of which a retention keeps the second: its hash still covers the first
one's, so the chain does not verify. -/
theorem verifyChain_fails_after_retention :
    Function.Injective (id : List UInt8 → List UInt8) ∧
      (run (AuditLog.after id) AuditLog.new
        [.record "boot" "a", .record "boot" "b", .applyRetention 1]).verifyChain id ≠
          .ok () := by
  exact ⟨Function.injective_id, by decide +kernel⟩

end Wardex.Audit
