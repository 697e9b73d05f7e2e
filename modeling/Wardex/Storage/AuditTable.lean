import Wardex.Audit.Chain
import Wardex.Enrollment.Registry
import Wardex.Lib.Delimited
import Wardex.Lib.HashChain

/-! The audit table of the storage: entries chained by their digests, the verification of the chain,
and the calls that delete entries; when the stored chain verifies, over every sequence of calls, and
what its last digest says about its entries. -/

namespace Wardex.Storage

open Wardex.Audit Wardex.Enrollment Wardex.Lib

inductive StorageErrorCode where
  | connectionFailed
  | migrationFailed
  | queryFailed
  | serializationError
  | notFound
  | conflict
  | corruptData
  | diskFull
deriving DecidableEq

structure StorageError where
  code : StorageErrorCode
  message : String
deriving DecidableEq

structure StoredAuditEntry where
  id : Nat
  timestamp : String
  actor : String
  action : String
  target : Option String
  detail : Option String
  digest : String
  prevDigest : Option String
  tenantId : String
deriving DecidableEq

/-- The rows of `audit_log` in the order of their ids, and the last id that was given out. -/
structure AuditTable where
  rows : List StoredAuditEntry
  lastId : Nat
deriving DecidableEq

def digestInput (timestamp actor action : String) (target prevDigest : Option String) : String :=
  timestamp ++ ":" ++ actor ++ ":" ++ action ++ ":" ++ target.getD "" ++ ":" ++ prevDigest.getD ""

variable (sha256 : List UInt8 → List UInt8)

def StoredAuditEntry.digestAfter (entry : StoredAuditEntry) (prevDigest : Option String) : String :=
  sha256Hex sha256 (asBytes
    (digestInput entry.timestamp entry.actor entry.action entry.target prevDigest))

/-- The loop of `verify_audit_chain`. -/
def verifyEntries : Option String → List StoredAuditEntry → Except StorageError Unit
  | _, [] => .ok ()
  | prevExpected, entry :: entries =>
    if entry.digestAfter sha256 prevExpected ≠ entry.digest then
      .error ⟨.corruptData, "audit chain broken at entry " ++ toString entry.id⟩
    else verifyEntries (some entry.digest) entries

/-- The loop of `purge_old_audit` that computes the chain again. -/
def rechain : Option String → List StoredAuditEntry → List StoredAuditEntry
  | _, [] => []
  | prevDigest, entry :: entries =>
    let digest := entry.digestAfter sha256 prevDigest
    { entry with digest := digest, prevDigest := prevDigest } :: rechain (some digest) entries

namespace AuditTable

def appendAudit (chrono : Chrono) (table : AuditTable) (actor action : String)
    (target detail : Option String) (tenantId : String) (now : Int) :
    AuditTable × StoredAuditEntry :=
  let prevDigest := table.rows.getLast?.map StoredAuditEntry.digest
  let timestamp := chrono.format now
  let digest := sha256Hex sha256 (asBytes (digestInput timestamp actor action target prevDigest))
  let entry : StoredAuditEntry :=
    { id := table.lastId + 1
      timestamp := timestamp
      actor := actor
      action := action
      target := target
      detail := detail
      digest := digest
      prevDigest := prevDigest
      tenantId := tenantId }
  ({ rows := table.rows ++ [entry], lastId := table.lastId + 1 }, entry)

def verifyAuditChain (table : AuditTable) : Except StorageError Nat :=
  (verifyEntries sha256 none table.rows).map fun _ => table.rows.length

def secondsPerDay : Int := 24 * 60 * 60

/-- With the number of the deleted rows, or `none` if the cutoff is out of range and panics. -/
def purgeOldAudit (chrono : Chrono) (table : AuditTable) (retentionDays : UInt32) (now : Int) :
    Option (AuditTable × Nat) :=
  (chrono.addSeconds now (-(retentionDays.toNat * secondsPerDay))).map fun cutoff =>
    let cutoffStr := chrono.format cutoff
    let entries := table.rows.filter fun entry => !decide (entry.timestamp < cutoffStr)
    let purged := table.rows.length - entries.length
    if purged > 0 then ({ table with rows := rechain sha256 none entries }, purged)
    else ({ table with rows := entries }, purged)

/-- `others` rows are deleted from the other tables. -/
def purgeEntity (chrono : Chrono) (table : AuditTable) (entityId : String) (others : Nat)
    (now : Int) : AuditTable × Nat :=
  let entries := table.rows.filter fun entry => !decide (entry.actor = entityId)
  let total := table.rows.length - entries.length + others
  (({ table with rows := entries } : AuditTable).appendAudit sha256 chrono "system:gdpr"
    "entity-forget" (some entityId)
    (some ("purged " ++ toString total ++ " records for GDPR right-to-forget")) "default" now |>.1,
    total)

def resetAllData (chrono : Chrono) (table : AuditTable) (others : Nat) (now : Int) :
    AuditTable × Nat :=
  let total := table.rows.length + others
  (({ table with rows := [] } : AuditTable).appendAudit sha256 chrono "system" "database-reset" none
    (some ("purged " ++ toString total ++ " records across all tables")) "default" now |>.1, total)

end AuditTable

/-- The calls that write to the audit table, each with the time it is made. -/
inductive AuditCall where
  | appendAudit (actor action : String) (target detail : Option String) (tenantId : String)
      (now : Int)
  | purgeOldAudit (retentionDays : UInt32) (now : Int)
  | purgeEntity (entityId : String) (others : Nat) (now : Int)
  | resetAllData (others : Nat) (now : Int)

/-- A call that panics has written nothing. -/
def AuditTable.after (chrono : Chrono) (table : AuditTable) : AuditCall → AuditTable
  | .appendAudit actor action target detail tenantId now =>
    (table.appendAudit sha256 chrono actor action target detail tenantId now).1
  | .purgeOldAudit retentionDays now =>
    (table.purgeOldAudit sha256 chrono retentionDays now).elim table Prod.fst
  | .purgeEntity entityId others now => (table.purgeEntity sha256 chrono entityId others now).1
  | .resetAllData others now => (table.resetAllData sha256 chrono others now).1

/-! ## Validity -/

section

variable (sha256 : List UInt8 → List UInt8) (chrono : Chrono)

/-! ## The table as a chain of digests -/

def chainDigest (prevDigest : String) (entry : StoredAuditEntry) : String :=
  entry.digestAfter sha256 (some prevDigest)

/-- The digests of the entries are those that the verification computes. -/
def Chained (rows : List StoredAuditEntry) : Prop :=
  Digested (chainDigest sha256) StoredAuditEntry.digest "" rows

variable {sha256} {chrono} {rows : List StoredAuditEntry} {entry : StoredAuditEntry}
  {prevDigest : Option String} {table : AuditTable}

/-- No digest counts as an empty one. -/
theorem digestAfter_getD (entry : StoredAuditEntry) (prevDigest : Option String) :
    entry.digestAfter sha256 prevDigest = chainDigest sha256 (prevDigest.getD "") entry := by
  cases prevDigest <;> rfl

theorem verifyEntries_eq_ok_iff (prevDigest : Option String) (rows : List StoredAuditEntry) :
    verifyEntries sha256 prevDigest rows = .ok () ↔
      Digested (chainDigest sha256) StoredAuditEntry.digest (prevDigest.getD "") rows := by
  induction rows generalizing prevDigest with
  | nil => exact iff_of_true rfl trivial
  | cons entry rows ih =>
    rw [verifyEntries, Digested, digestAfter_getD]
    split_ifs with hdigest
    · refine iff_of_false (fun hok => ?_) fun h => hdigest h.1.symm
      cases hok
    · rw [ih, Option.getD_some]
      exact (and_iff_right (not_not.mp hdigest).symm).symm

/-- The chain of the table verifies, with the number of entries. -/
def AuditTable.Verified (sha256 : List UInt8 → List UInt8) (table : AuditTable) : Prop :=
  table.verifyAuditChain sha256 = .ok table.rows.length

theorem AuditTable.verified_iff : table.Verified sha256 ↔ Chained sha256 table.rows := by
  have hentries : verifyEntries sha256 none table.rows = .ok () ↔ Chained sha256 table.rows :=
    verifyEntries_eq_ok_iff none table.rows
  rw [Verified, verifyAuditChain, ← hentries]
  cases verifyEntries sha256 none table.rows with
  | error e => exact iff_of_false nofun nofun
  | ok _ => exact iff_of_true rfl rfl

theorem digested_rechain (prevDigest : Option String) (rows : List StoredAuditEntry) :
    Digested (chainDigest sha256) StoredAuditEntry.digest (prevDigest.getD "")
      (rechain sha256 prevDigest rows) := by
  induction rows generalizing prevDigest with
  | nil => trivial
  | cons entry rows ih => exact ⟨digestAfter_getD entry prevDigest, ih (some _)⟩

theorem chained_nil : Chained sha256 [] := trivial

/-! ## One call -/

theorem AuditTable.rows_appendAudit (table : AuditTable) (actor action : String)
    (target detail : Option String) (tenantId : String) (now : Int) :
    (table.appendAudit sha256 chrono actor action target detail tenantId now).1.rows = table.rows ++
      [(table.appendAudit sha256 chrono actor action target detail tenantId now).2] := rfl

theorem AuditTable.digest_appendAudit (sha256 : List UInt8 → List UInt8) (chrono : Chrono)
    (table : AuditTable) (actor action : String) (target detail : Option String)
    (tenantId : String) (now : Int) :
    (table.appendAudit sha256 chrono actor action target detail tenantId now).2.digest =
      (table.appendAudit sha256 chrono actor action target detail tenantId now).2.digestAfter sha256
        (table.rows.getLast?.map StoredAuditEntry.digest) := rfl

theorem getD_getLast?_digest : (rows.getLast?.map StoredAuditEntry.digest).getD "" =
    lastDigest StoredAuditEntry.digest "" rows := by
  rw [lastDigest]
  cases rows.getLast? <;> rfl

/-- The entry that is appended continues the chain. -/
theorem Chained.appendAudit (h : Chained sha256 table.rows) (actor action : String)
    (target detail : Option String) (tenantId : String) (now : Int) :
    Chained sha256
      (table.appendAudit sha256 chrono actor action target detail tenantId now).1.rows := by
  have hdigest := AuditTable.digest_appendAudit sha256 chrono table actor action target detail
    tenantId now
  rw [digestAfter_getD, getD_getLast?_digest] at hdigest
  rw [AuditTable.rows_appendAudit]
  exact Digested.append.mpr ⟨h, hdigest, trivial⟩

theorem Chained.purgeOldAudit (h : Chained sha256 table.rows) {retentionDays : UInt32} {now : Int}
    {purged : AuditTable × Nat}
    (hpurge : table.purgeOldAudit sha256 chrono retentionDays now = some purged) :
    Chained sha256 purged.1.rows := by
  obtain ⟨cutoff, -, rfl⟩ := Option.map_eq_some_iff.mp hpurge
  dsimp only
  split_ifs with hsome
  · exact digested_rechain none _
  · -- nothing was deleted
    have hall := List.length_filter_le (fun entry : StoredAuditEntry =>
      !decide (entry.timestamp < chrono.format cutoff)) table.rows
    rw [List.filter_eq_self.mpr]
    · exact h
    · refine List.length_filter_eq_length_iff.mp ?_
      omega

/-- If the call forgets an entity then no entry of another actor comes after one of its entries. -/
def AuditTable.EntityLast (table : AuditTable) (call : AuditCall) : Prop :=
  ∀ entityId others now, call = .purgeEntity entityId others now →
    table.rows.Pairwise fun entry later => entry.actor = entityId → later.actor = entityId

theorem pairwise_keep_iff {entityId : String} :
    (rows.Pairwise fun entry later =>
      (!decide (later.actor = entityId)) = true → (!decide (entry.actor = entityId)) = true) ↔
      rows.Pairwise fun entry later => entry.actor = entityId → later.actor = entityId := by
  refine List.Pairwise.iff fun entry later => ?_
  rw [Bool.not_eq_true', Bool.not_eq_true', decide_eq_false_iff_not, decide_eq_false_iff_not,
    not_imp_not]

theorem Chained.after (h : Chained sha256 table.rows) {call : AuditCall}
    (hcall : table.EntityLast call) : Chained sha256 (table.after sha256 chrono call).rows := by
  cases call with
  | appendAudit actor action target detail tenantId now =>
    exact h.appendAudit actor action target detail tenantId now
  | purgeOldAudit retentionDays now =>
    rw [AuditTable.after]
    cases hpurge : table.purgeOldAudit sha256 chrono retentionDays now with
    | none => exact h
    | some purged => exact h.purgeOldAudit hpurge
  | purgeEntity entityId others now =>
    have hkept : Chained sha256 ({ table with
        rows := table.rows.filter fun entry => !decide (entry.actor = entityId) } :
          AuditTable).rows :=
      h.filter (pairwise_keep_iff.mpr (hcall entityId others now rfl))
    exact hkept.appendAudit _ _ _ _ _ _
  | resetAllData others now =>
    have hempty : Chained sha256 ({ table with rows := [] } : AuditTable).rows := chained_nil
    exact hempty.appendAudit _ _ _ _ _ _

/-! ## Digests that show what they cover -/

theorem length_le_length_asBytes (s : String) : s.length ≤ (asBytes s).length := by
  have hsize : (asBytes s).length = s.utf8ByteSize := Array.length_toList
  rw [hsize]
  clear hsize
  induction s using String.push_induction with
  | empty => exact Nat.zero_le _
  | push s c ih =>
    have hpos := Char.utf8Size_pos c
    rw [String.length_push, String.utf8ByteSize_push]
    omega

theorem length_hexEncode (bytes : List UInt8) : (hexEncode bytes).length = 2 * bytes.length := by
  rw [hexEncode, String.length_ofList]
  induction bytes with
  | nil => rfl
  | cons b bytes ih =>
    rw [List.flatMap_cons, List.length_append, ih, List.length_cons, List.length_cons,
      List.length_cons, List.length_nil]
    omega

theorem chainDigest_id_injective (entry : StoredAuditEntry) :
    Function.Injective fun prevDigest => chainDigest id prevDigest entry := by
  intro p q h
  have hinput := asBytes_injective (hexEncode_injective h)
  rw [digestInput, digestInput, String.append_right_inj] at hinput
  exact hinput

theorem length_lt_length_chainDigest_id (prevDigest : String) (entry : StoredAuditEntry) :
    prevDigest.length < (chainDigest id prevDigest entry).length := by
  have hbytes := length_le_length_asBytes
    (digestInput entry.timestamp entry.actor entry.action entry.target (some prevDigest))
  rw [chainDigest, StoredAuditEntry.digestAfter, sha256Hex, length_hexEncode, id_eq]
  generalize hinput : digestInput entry.timestamp entry.actor entry.action entry.target
    (some prevDigest) = input at hbytes ⊢
  have hlength := congrArg String.length hinput
  have hseparator : (":" : String).length = 1 := rfl
  rw [digestInput, String.length_append, String.length_append, hseparator, Option.getD_some]
    at hlength
  omega

/-- If digests show what they cover, the chain breaks wherever an entry follows a forgotten one. -/
theorem Chained.entityLast {call : AuditCall} (h : Chained id table.rows)
    (hafter : Chained id (table.after id chrono call).rows) : table.EntityLast call := by
  rintro entityId others now rfl
  have hkept := (Digested.append.mp hafter).1
  exact pairwise_keep_iff.mp (h.pairwise_of_filter chainDigest_id_injective
    length_lt_length_chainDigest_id hkept)

/-! ## The table without its digests -/

/-- The time and the actor of each entry. -/
def AuditTable.marks (table : AuditTable) : List (String × String) :=
  table.rows.map fun entry => (entry.timestamp, entry.actor)

variable (chrono) in
def marksAfter (marks : List (String × String)) : AuditCall → List (String × String)
  | .appendAudit actor _ _ _ _ now => marks ++ [(chrono.format now, actor)]
  | .purgeOldAudit retentionDays now =>
    (chrono.addSeconds now (-(retentionDays.toNat * AuditTable.secondsPerDay))).elim marks
      fun cutoff => marks.filter fun mark => !decide (mark.1 < chrono.format cutoff)
  | .purgeEntity entityId _ now =>
    (marks.filter fun mark => !decide (mark.2 = entityId)) ++ [(chrono.format now, "system:gdpr")]
  | .resetAllData _ now => [(chrono.format now, "system")]

theorem marks_rechain (prevDigest : Option String) (rows : List StoredAuditEntry) :
    ((rechain sha256 prevDigest rows).map fun entry => (entry.timestamp, entry.actor)) =
      rows.map fun entry => (entry.timestamp, entry.actor) := by
  induction rows generalizing prevDigest with
  | nil => rfl
  | cons entry rows ih => rw [rechain, List.map_cons, List.map_cons, ih]

theorem marks_appendAudit (table : AuditTable) (actor action : String)
    (target detail : Option String) (tenantId : String) (now : Int) :
    (table.appendAudit sha256 chrono actor action target detail tenantId now).1.marks =
      table.marks ++ [(chrono.format now, actor)] := List.map_append

/-- What is left of the digests tells which entries a call writes and deletes. -/
theorem marks_after (table : AuditTable) (call : AuditCall) :
    (table.after sha256 chrono call).marks = marksAfter chrono table.marks call := by
  cases call with
  | appendAudit actor action target detail tenantId now => exact marks_appendAudit _ _ _ _ _ _ _
  | purgeOldAudit retentionDays now =>
    rw [AuditTable.after, AuditTable.purgeOldAudit, marksAfter]
    cases chrono.addSeconds now (-(retentionDays.toNat * AuditTable.secondsPerDay)) with
    | none => rfl
    | some cutoff =>
      rw [Option.map_some, Option.elim_some, Option.elim_some, AuditTable.marks, AuditTable.marks,
        List.filter_map]
      dsimp only
      split_ifs
      · exact marks_rechain none _
      · rfl
  | purgeEntity entityId others now =>
    have hkept : ({ table with
        rows := table.rows.filter fun entry => !decide (entry.actor = entityId) } :
          AuditTable).marks =
        table.marks.filter fun mark => !decide (mark.2 = entityId) := by
      rw [AuditTable.marks, AuditTable.marks, List.filter_map]
      rfl
    rw [marksAfter, ← hkept]
    exact marks_appendAudit _ _ _ _ _ _ _
  | resetAllData others now => exact marks_appendAudit _ _ _ _ _ _ _

/-- The same condition, read off the times and actors. -/
def ForgetsLast (marks : List (String × String)) (call : AuditCall) : Prop :=
  ∀ entityId others now, call = .purgeEntity entityId others now →
    marks.Pairwise fun mark later => mark.2 = entityId → later.2 = entityId

theorem entityLast_iff {call : AuditCall} :
    table.EntityLast call ↔ ForgetsLast table.marks call := by
  refine forall_congr' fun entityId => forall_congr' fun others => forall_congr' fun now =>
    imp_congr_right fun _ => ?_
  rw [AuditTable.marks, List.pairwise_map]

/-- Which entries are forgotten does not depend on the digests. -/
theorem along_entityLast_iff (sha256 : List UInt8 → List UInt8) {calls : List AuditCall} :
    Along (AuditTable.after sha256 chrono) AuditTable.EntityLast table calls ↔
      Along (marksAfter chrono) ForgetsLast table.marks calls :=
  along_map (fun table call => marks_after table call) fun _ _ => entityLast_iff

/-! ## All runs -/

/-- The chain verifies throughout a run, whatever the hash function, if and only if no other entry
comes after an entry that is forgotten. -/
theorem audit_chain_valid_iff (chrono : Chrono) (lastId : Nat) (calls : List AuditCall) :
    (∀ sha256, Throughout (AuditTable.after sha256 chrono) (AuditTable.Verified sha256)
        ⟨[], lastId⟩ calls) ↔
      ∀ sha256,
        Along (AuditTable.after sha256 chrono) AuditTable.EntityLast ⟨[], lastId⟩ calls := by
  constructor
  · intro h sha256
    have hid : Along (AuditTable.after id chrono) AuditTable.EntityLast ⟨[], lastId⟩ calls := by
      refine (throughout_iff_along (I := fun table => Chained id table.rows) ?_ ?_ ?_
        chained_nil).mp (h id)
      · exact fun table call hchained hcall => hchained.after hcall
      · exact fun table hchained => AuditTable.verified_iff.mpr hchained
      · exact fun table call hchained hafter =>
          hchained.entityLast (AuditTable.verified_iff.mp hafter)
    exact (along_entityLast_iff sha256).mpr ((along_entityLast_iff id).mp hid)
  · intro h sha256
    refine throughout_of_invariant (I := fun table => Chained sha256 table.rows) ?_ ?_ chained_nil
      (h sha256)
    · exact fun table call hchained hcall => hchained.after hcall
    · exact fun table hchained => AuditTable.verified_iff.mpr hchained

/-- A device is forgotten whose entry is followed by one of an administrator. -/
def forgottenDevice : List AuditCall :=
  [.appendAudit "device-1" "register" none none "default" 0,
    .appendAudit "admin" "approve" (some "device-1") none "default" 0, .purgeEntity "device-1" 0 0]

/-- Where digests show what they cover, the chain does not verify after that. -/
theorem forgotten_device_breaks_chain :
    ¬ ∀ sha256, Throughout (AuditTable.after sha256 firstHour) (AuditTable.Verified sha256) ⟨[], 0⟩
      forgottenDevice := by
  intro h
  obtain ⟨-, -, hbefore, hafter⟩ := h id
  have hlast := (AuditTable.verified_iff.mp hbefore).entityLast (AuditTable.verified_iff.mp hafter)
  exact absurd (hlast "device-1" 0 0 rfl) (by decide)

end

/-! ## The last digest -/

/-- The entries agree on every field that is recorded. -/
structure SameFields (entry entry' : StoredAuditEntry) : Prop where
  timestamp : entry.timestamp = entry'.timestamp
  actor : entry.actor = entry'.actor
  action : entry.action = entry'.action
  target : entry.target = entry'.target
  detail : entry.detail = entry'.detail
  tenantId : entry.tenantId = entry'.tenantId

def colons (s : String) : Nat := s.toList.count ':'

/-- The entries have the same number of separators in the first three of the fields that the digest
covers, both have a target or none, and they agree on the fields that it does not cover. -/
structure SameLayout (entry entry' : StoredAuditEntry) : Prop where
  timestamp : colons entry.timestamp = colons entry'.timestamp
  actor : colons entry.actor = colons entry'.actor
  action : colons entry.action = colons entry'.action
  target : entry.target.isSome = entry'.target.isSome
  detail : entry.detail = entry'.detail
  tenantId : entry.tenantId = entry'.tenantId

variable {entry entry' : StoredAuditEntry} {prev prev' : String}

theorem SameFields.sameLayout (h : SameFields entry entry') : SameLayout entry entry' :=
  ⟨congrArg colons h.timestamp, congrArg colons h.actor, congrArg colons h.action,
    congrArg Option.isSome h.target, h.detail, h.tenantId⟩

theorem toList_digestInput (timestamp actor action : String) (target prevDigest : Option String) :
    (digestInput timestamp actor action target prevDigest).toList =
      timestamp.toList ++ ':' :: (actor.toList ++ ':' :: (action.toList ++ ':' ::
        ((target.getD "").toList ++ ':' :: (prevDigest.getD "").toList))) := by
  simp [digestInput]

theorem eq_of_isSome_eq {a b : Option String} (hsome : a.isSome = b.isSome)
    (hvalue : a.getD "" = b.getD "") : a = b := by
  cases a with
  | none =>
    cases b with
    | none => rfl
    | some t => exact absurd hsome Bool.false_ne_true
  | some s =>
    cases b with
    | none => exact absurd hsome.symm Bool.false_ne_true
    | some t => exact congrArg some hvalue

/-- The text that a digest covers gives the fields back once the separators are known. -/
theorem sameFields_of_digestInput (hprev : ':' ∉ prev.toList) (hprev' : ':' ∉ prev'.toList)
    (hlayout : SameLayout entry entry')
    (h : digestInput entry.timestamp entry.actor entry.action entry.target (some prev) =
      digestInput entry'.timestamp entry'.actor entry'.action entry'.target (some prev')) :
    prev = prev' ∧ SameFields entry entry' := by
  have hlist := congrArg String.toList h
  rw [toList_digestInput, toList_digestInput] at hlist
  obtain ⟨htimestamp, hlist⟩ := fields_unique hlist hlayout.timestamp
  obtain ⟨hactor, hlist⟩ := fields_unique hlist hlayout.actor
  obtain ⟨haction, hlist⟩ := fields_unique hlist hlayout.action
  have hcount := congrArg (List.count ':') hlist
  rw [List.count_append, List.count_append, List.count_cons_self, List.count_cons_self,
    Option.getD_some, Option.getD_some, List.count_eq_zero_of_not_mem hprev,
    List.count_eq_zero_of_not_mem hprev'] at hcount
  obtain ⟨htarget, hprevs⟩ := fields_unique hlist (Nat.add_right_cancel hcount)
  exact ⟨String.toList_inj.mp hprevs, String.toList_inj.mp htimestamp, String.toList_inj.mp hactor,
    String.toList_inj.mp haction, eq_of_isSome_eq hlayout.target (String.toList_inj.mp htarget),
    hlayout.detail, hlayout.tenantId⟩

/-- The last digest of two tables that verify pins down every field of every entry if and only if
the entries have the same layout, row by row. -/
theorem fields_agree_iff {sha256 : List UInt8 → List UInt8} (hinj : Function.Injective sha256)
    {table table' : AuditTable} (hok : table.Verified sha256) (hok' : table'.Verified sha256)
    (hlast : table.rows.getLast?.map StoredAuditEntry.digest =
      table'.rows.getLast?.map StoredAuditEntry.digest) :
    List.Forall₂ SameFields table.rows table'.rows ↔
      List.Forall₂ SameLayout table.rows table'.rows := by
  constructor
  · exact fun h => h.imp fun _ _ hfields => hfields.sameLayout
  · intro h
    have hdigest (prev : String) (entry : StoredAuditEntry) :
        ':' ∉ (chainDigest sha256 prev entry).toList := notMem_hexEncode (by decide) _
    have hlastDigest : lastDigest StoredAuditEntry.digest "" table.rows =
        lastDigest StoredAuditEntry.digest "" table'.rows := by
      rw [← getD_getLast?_digest, ← getD_getLast?_digest, hlast]
    refine (Digested.forall₂_of_lastDigest (Q := fun prev => ':' ∉ prev.toList) hdigest ?_ h
      (AuditTable.verified_iff.mp hok) (AuditTable.verified_iff.mp hok') (by decide) (by decide)
      hlastDigest).2
    intro prev prev' entry entry' hprev hprev' hlayout heq
    exact sameFields_of_digestInput hprev hprev' hlayout
      (asBytes_injective (hinj (hexEncode_injective heq)))

/-- A table with one entry of an administrator. -/
def approved (detail : String) : AuditTable :=
  ((⟨[], 0⟩ : AuditTable).appendAudit id firstHour "admin" "approve" none (some detail) "default"
    0).1

theorem approved_verified (detail : String) : (approved detail).Verified id :=
  AuditTable.verified_iff.mpr (chained_nil.appendAudit _ _ _ _ _ _)

theorem fields_agree_iff_approved :
    List.Forall₂ SameFields (approved "ticket 7").rows (approved "ticket 7").rows :=
  (fields_agree_iff Function.injective_id (approved_verified "ticket 7")
    (approved_verified "ticket 7") rfl).mpr (.cons ⟨rfl, rfl, rfl, rfl, rfl, rfl⟩ .nil)

/-- Two entries with other details have one digest. -/
theorem detail_not_covered :
    Function.Injective (id : List UInt8 → List UInt8) ∧ (approved "ticket 7").Verified id ∧
      (approved "ticket 8").Verified id ∧
      (approved "ticket 7").rows.length = (approved "ticket 8").rows.length ∧
      (approved "ticket 7").rows.getLast?.map StoredAuditEntry.digest =
        (approved "ticket 8").rows.getLast?.map StoredAuditEntry.digest ∧
      ¬ List.Forall₂ SameFields (approved "ticket 7").rows (approved "ticket 8").rows := by
  refine ⟨Function.injective_id, approved_verified _, approved_verified _, rfl, rfl, ?_⟩
  intro h
  have hdetail : some "ticket 7" = some "ticket 8" := (List.forall₂_cons.mp h).1.detail
  exact absurd hdetail (by decide)

end Wardex.Storage
