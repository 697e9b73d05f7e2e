import Mathlib.Data.List.Nodup
import Wardex.Audit.Log
import Wardex.Lib.KeyMap
import Wardex.Lib.Records
import Wardex.Lib.Run

/-! The quarantine store: the records of quarantined files, and beside them their contents, which
are obfuscated and kept under the ids of the records.  Digests, clock texts and the name at the end
of a path are parameters. -/

namespace Wardex.Quarantine

open Wardex.Lib Wardex.Audit

inductive QuarantineStatus where
  | quarantined
  | underAnalysis
  | confirmed
  | falsePositive
  | released
  | deleted
deriving DecidableEq

structure QuarantinedFile where
  id : String
  originalPath : String
  filename : String
  sha256 : String
  md5 : String
  sizeBytes : ℕ
  quarantinedAt : String
  agentId : Option String
  hostname : Option String
  verdict : String
  malwareFamily : Option String
  scanMatches : List String
  status : QuarantineStatus
  analystNotes : Option String
  releasedAt : Option String
  releasedBy : Option String
deriving DecidableEq

structure QuarantineStore where
  files : List QuarantinedFile
  contentStore : KeyMap String (List UInt8)
  nextId : UInt64

/-- SHA-256 and MD5 in hexadecimal, and the last component of a path, if it has one. -/
structure FileOps where
  sha256 : List UInt8 → String
  md5 : List UInt8 → String
  fileName : String → Option String

/-! ## Obfuscation -/

def quarantineXorKey : List UInt8 := asBytes "WARDEX_QUARANTINE_v1"

def xorObfuscate (data : List UInt8) : List UInt8 :=
  data.mapIdx fun i b => b ^^^ quarantineXorKey.getD (i % quarantineXorKey.length) 0

@[simp] theorem xorObfuscate_xorObfuscate (data : List UInt8) :
    xorObfuscate (xorObfuscate data) = data := by
  rw [xorObfuscate, xorObfuscate, List.mapIdx_mapIdx]
  have hid : ∀ i (b : UInt8), b ^^^ quarantineXorKey.getD (i % quarantineXorKey.length) 0 ^^^
      quarantineXorKey.getD (i % quarantineXorKey.length) 0 = b := by
    intro i b
    rw [UInt8.xor_assoc, UInt8.xor_self, UInt8.xor_zero]
  apply List.ext_getElem?
  intro i
  rw [List.getElem?_mapIdx]
  cases data[i]? with
  | none => rfl
  | some b => exact congrArg some (hid i b)

/-! ## The operations -/

/-- What is told of a file when it is put into quarantine. -/
structure Report where
  originalPath : String
  verdict : String
  malwareFamily : Option String
  scanMatches : List String
  agentId : Option String
  hostname : Option String

namespace QuarantineStore

def new : QuarantineStore := ⟨[], .empty, 1⟩

variable (ops : FileOps) (store : QuarantineStore)

def nextName : String := "q-" ++ toString store.nextId.toNat

def quarantine (report : Report) (content : List UInt8) (now : String) :
    QuarantineStore × QuarantinedFile :=
  let record : QuarantinedFile := {
    id := store.nextName
    originalPath := report.originalPath
    filename := (ops.fileName report.originalPath).getD "unknown"
    sha256 := ops.sha256 content
    md5 := ops.md5 content
    sizeBytes := content.length
    quarantinedAt := now
    agentId := report.agentId
    hostname := report.hostname
    verdict := report.verdict
    malwareFamily := report.malwareFamily
    scanMatches := report.scanMatches
    status := .quarantined
    analystNotes := none
    releasedAt := none
    releasedBy := none }
  ({ files := store.files ++ [record]
     contentStore := store.contentStore.insert record.id (xorObfuscate content)
     nextId := store.nextId + 1 }, record)

def retrieveContent (id : String) : Option (List UInt8) :=
  (store.contentStore id).map xorObfuscate

def updateStatus (id : String) (status : QuarantineStatus) (notes : Option String) :
    QuarantineStore × Bool :=
  ({ store with
      files := updateFirst (fun f => f.id = id) (fun f =>
        { f with status := status, analystNotes := notes.or f.analystNotes }) store.files },
    store.files.any fun f => f.id = id)

/-- The content goes only with a record. -/
def release (id analyst now : String) : QuarantineStore × Bool :=
  if store.files.any fun f => f.id = id then
    ({ store with
        files := updateFirst (fun f => f.id = id) (fun f =>
          { f with status := .released, releasedAt := some now, releasedBy := some analyst })
          store.files
        contentStore := store.contentStore.erase id }, true)
  else (store, false)

def delete (id : String) : QuarantineStore × Bool :=
  let files := store.files.filter fun f => f.id ≠ id
  ({ store with files := files, contentStore := store.contentStore.erase id },
    files.length < store.files.length)

end QuarantineStore

inductive Call where
  | quarantine (report : Report) (content : List UInt8) (now : String)
  | updateStatus (id : String) (status : QuarantineStatus) (notes : Option String)
  | release (id analyst now : String)
  | delete (id : String)

/-- The store, and the content that was last put into quarantine under each id. -/
structure World where
  store : QuarantineStore
  original : KeyMap String (List UInt8)

namespace World

def start : World := ⟨.new, .empty⟩

def step (ops : FileOps) (w : World) : Call → World
  | .quarantine report content now =>
    ⟨(w.store.quarantine ops report content now).1, w.original.insert w.store.nextName content⟩
  | .updateStatus id status notes => { w with store := (w.store.updateStatus id status notes).1 }
  | .release id analyst now => { w with store := (w.store.release id analyst now).1 }
  | .delete id => { w with store := (w.store.delete id).1 }

/-- The contents are those of the records that are not released, as they were and as the records
describe them. -/
structure Faithful (ops : FileOps) (w : World) : Prop where
  distinct : (w.store.files.map QuarantinedFile.id).Nodup
  retrievable : ∀ id, (w.store.retrieveContent id).isSome ↔
    ∃ f ∈ w.store.files, f.id = id ∧ f.status ≠ .released
  original : ∀ id content, w.store.retrieveContent id = some content →
    w.original id = some content
  described : ∀ f ∈ w.store.files, ∀ content, w.store.retrieveContent f.id = some content →
    f.sha256 = ops.sha256 content ∧ f.sizeBytes = content.length

/-- A new id is not in use, and `update_status` neither releases a file nor takes one back. -/
def Careful (w : World) : Call → Prop
  | .quarantine _ _ _ => w.store.nextName ∉ w.store.files.map QuarantinedFile.id
  | .updateStatus id status _ =>
    ∀ f ∈ w.store.files, f.id = id → (f.status = .released ↔ status = .released)
  | .release _ _ _ | .delete _ => True

variable {ops : FileOps} {w : World}

/-! ## Steps -/

theorem retrieveContent_quarantine (ops : FileOps) (store : QuarantineStore) (report : Report)
    (content : List UInt8) (now id : String) :
    (store.quarantine ops report content now).1.retrieveContent id =
      if id = store.nextName then some content else store.retrieveContent id := by
  change ((store.contentStore.insert store.nextName (xorObfuscate content)) id).map xorObfuscate = _
  rw [KeyMap.insert_apply]
  split_ifs
  · rw [Option.map_some, xorObfuscate_xorObfuscate]
  · rfl

theorem map_erase_eq (store : QuarantineStore) (id id' : String) :
    (store.contentStore.erase id id').map xorObfuscate =
      if id' = id then none else store.retrieveContent id' := by
  split_ifs with h
  · rw [h, KeyMap.erase_self, Option.map_none]
  · rw [KeyMap.erase_of_ne _ h]
    rfl

theorem nodup_quarantine (ops : FileOps) (store : QuarantineStore) (report : Report)
    (content : List UInt8) (now : String) :
    ((store.quarantine ops report content now).1.files.map QuarantinedFile.id).Nodup ↔
      store.nextName ∉ store.files.map QuarantinedFile.id ∧
        (store.files.map QuarantinedFile.id).Nodup := by
  change ((store.files ++ [_]).map QuarantinedFile.id).Nodup ↔ _
  rw [List.map_append, List.nodup_append_comm, List.map_singleton, List.singleton_append,
    List.nodup_cons]

theorem Faithful.quarantine (h : w.Faithful ops) {report : Report} {content : List UInt8}
    {now : String} (hfresh : w.store.nextName ∉ w.store.files.map QuarantinedFile.id) :
    (w.step ops (.quarantine report content now)).Faithful ops := by
  have hretrieve := retrieveContent_quarantine ops w.store report content now
  have hother : ∀ f ∈ w.store.files, f.id ≠ w.store.nextName := fun f hf heq =>
    hfresh (heq ▸ List.mem_map_of_mem hf)
  refine ⟨?_, fun id => ?_, fun id content' => ?_, fun f hf content' => ?_⟩
  · exact (nodup_quarantine ops w.store report content now).mpr ⟨hfresh, h.distinct⟩
  · change ((w.store.quarantine ops report content now).1.retrieveContent id).isSome ↔
      ∃ f ∈ w.store.files ++ [_], f.id = id ∧ f.status ≠ .released
    rw [hretrieve]
    split_ifs with hid
    · refine iff_of_true rfl ⟨_, List.mem_append_right _ (List.mem_singleton_self _), hid.symm, ?_⟩
      exact QuarantineStatus.noConfusion
    · rw [h.retrievable]
      simp only [List.mem_append, List.mem_singleton, or_and_right, exists_or, exists_eq_left]
      exact (or_iff_left fun hnew => hid hnew.1.symm).symm
  · intro hcontent
    change (w.store.quarantine ops report content now).1.retrieveContent id = _ at hcontent
    change w.original.insert w.store.nextName content id = some content'
    rw [hretrieve] at hcontent
    rw [KeyMap.insert_apply]
    split_ifs at hcontent ⊢
    · exact hcontent
    · exact h.original id content' hcontent
  · intro hcontent
    change (w.store.quarantine ops report content now).1.retrieveContent f.id = _ at hcontent
    rw [hretrieve] at hcontent
    rcases List.mem_append.mp hf with hf | hf
    · rw [if_neg (hother f hf)] at hcontent
      exact h.described f hf content' hcontent
    · obtain rfl := List.mem_singleton.mp hf
      rw [if_pos rfl] at hcontent
      cases hcontent
      exact ⟨rfl, rfl⟩

/-- A file with another status, under the same id and with the same description. -/
structure Relabels (status : QuarantineStatus) (g : QuarantinedFile → QuarantinedFile) : Prop where
  id : ∀ f, (g f).id = f.id
  sha256 : ∀ f, (g f).sha256 = f.sha256
  sizeBytes : ∀ f, (g f).sizeBytes = f.sizeBytes
  status : ∀ f, (g f).status = status

theorem relabels_updateStatus (status : QuarantineStatus) (notes : Option String) :
    Relabels status fun f =>
      { f with status := status, analystNotes := notes.or f.analystNotes } :=
  ⟨fun _ => rfl, fun _ => rfl, fun _ => rfl, fun _ => rfl⟩

theorem relabels_release (analyst now : String) :
    Relabels .released fun f =>
      { f with status := .released, releasedAt := some now, releasedBy := some analyst } :=
  ⟨fun _ => rfl, fun _ => rfl, fun _ => rfl, fun _ => rfl⟩

theorem exists_relabelled_iff {status : QuarantineStatus} {g : QuarantinedFile → QuarantinedFile}
    (hg : Relabels status g) (hnodup : (w.store.files.map QuarantinedFile.id).Nodup)
    (id id' : String) :
    (∃ f ∈ updateFirst (fun f => f.id = id) g w.store.files, f.id = id' ∧ f.status ≠ .released) ↔
      ∃ f ∈ w.store.files, f.id = id' ∧
        (if f.id = id then status else f.status) ≠ .released := by
  rw [updateFirst_eq_map hnodup]
  simp only [List.mem_map, exists_exists_and_eq_and]
  refine exists_congr fun f => and_congr_right fun _ => ?_
  split_ifs
  · rw [hg.id, hg.status]
  · exact Iff.rfl

/-- Relabelling the file with an id keeps the store faithful where its content stays exactly when it
is not released then. -/
theorem Faithful.relabel (h : w.Faithful ops) {status : QuarantineStatus}
    {g : QuarantinedFile → QuarantinedFile} (hg : Relabels status g) {id : String}
    {contents : KeyMap String (List UInt8)}
    (hcontents : ∀ id', (contents id').map xorObfuscate =
      if id' = id ∧ status = .released then none else w.store.retrieveContent id')
    (hstatus : ∀ f ∈ w.store.files, f.id = id → f.status = .released → status = .released) :
    (World.mk { w.store with
        files := updateFirst (fun f => f.id = id) g w.store.files
        contentStore := contents } w.original).Faithful ops := by
  refine ⟨?_, fun id' => ?_, fun id' content hcontent => ?_, fun f hf content hcontent => ?_⟩
  · change ((updateFirst _ g w.store.files).map QuarantinedFile.id).Nodup
    rw [map_updateFirst hg.id]
    exact h.distinct
  · change ((contents id').map xorObfuscate).isSome ↔ ∃ f ∈ updateFirst _ g w.store.files, _
    rw [hcontents, exists_relabelled_iff hg h.distinct]
    by_cases hid : id' = id
    · subst hid
      have hlabel : (∃ f ∈ w.store.files, f.id = id' ∧
          (if f.id = id' then status else f.status) ≠ .released) ↔
          (∃ f ∈ w.store.files, f.id = id') ∧ status ≠ .released := by
        constructor
        · rintro ⟨f, hf, hid, hne⟩
          rw [if_pos hid] at hne
          exact ⟨⟨f, hf, hid⟩, hne⟩
        · rintro ⟨⟨f, hf, hid⟩, hne⟩
          exact ⟨f, hf, hid, by rwa [if_pos hid]⟩
      rw [hlabel]
      by_cases hreleased : status = .released
      · rw [if_pos ⟨rfl, hreleased⟩]
        exact iff_of_false Bool.false_ne_true fun hboth => hboth.2 hreleased
      · rw [if_neg fun hboth => hreleased hboth.2, h.retrievable]
        constructor
        · rintro ⟨f, hf, hid, -⟩
          exact ⟨⟨f, hf, hid⟩, hreleased⟩
        · rintro ⟨⟨f, hf, hid⟩, -⟩
          exact ⟨f, hf, hid, fun hold => hreleased (hstatus f hf hid hold)⟩
    · rw [if_neg fun hboth => hid hboth.1, h.retrievable]
      refine exists_congr fun f => and_congr_right fun _ => and_congr_right fun heq => ?_
      rw [if_neg (heq ▸ hid)]
  · change (contents id').map xorObfuscate = some content at hcontent
    rw [hcontents] at hcontent
    split_ifs at hcontent
    exact h.original id' content hcontent
  · change (contents f.id).map xorObfuscate = some content at hcontent
    rw [hcontents] at hcontent
    split_ifs at hcontent
    rcases mem_updateFirst hf with hf | ⟨f, hfind, rfl⟩
    · exact h.described f hf content hcontent
    · rw [hg.id] at hcontent
      rw [hg.sha256, hg.sizeBytes]
      exact h.described f (List.mem_of_find?_eq_some hfind) content hcontent

theorem Faithful.updateStatus (h : w.Faithful ops) {id : String} {status : QuarantineStatus}
    {notes : Option String}
    (hstatus : ∀ f ∈ w.store.files, f.id = id → (f.status = .released ↔ status = .released)) :
    (w.step ops (.updateStatus id status notes)).Faithful ops := by
  refine h.relabel (relabels_updateStatus status notes) (fun id' => ?_)
    fun f hf hid hreleased => (hstatus f hf hid).mp hreleased
  split_ifs with hboth
  · obtain ⟨rfl, hreleased⟩ := hboth
    -- a file that is released already has no content
    rw [← Option.not_isSome_iff_eq_none]
    intro hsome
    obtain ⟨f, hf, hid, hne⟩ := (h.retrievable id').mp hsome
    exact hne ((hstatus f hf hid).mpr hreleased)
  · rfl

theorem Faithful.release (h : w.Faithful ops) (id analyst now : String) :
    (w.step ops (.release id analyst now)).Faithful ops := by
  rw [step, QuarantineStore.release]
  split_ifs
  · refine h.relabel (relabels_release analyst now) (fun id' => ?_) fun f hf hid hreleased => rfl
    rw [map_erase_eq]
    simp only [and_true]
  · exact h

theorem Faithful.delete (h : w.Faithful ops) (id : String) :
    (w.step ops (.delete id)).Faithful ops := by
  have hretrieve : ∀ id', (w.step ops (.delete id)).store.retrieveContent id' =
      if id' = id then none else w.store.retrieveContent id' := map_erase_eq w.store id
  have hfiles : ∀ f, f ∈ (w.step ops (.delete id)).store.files ↔ f ∈ w.store.files ∧ f.id ≠ id := by
    intro f
    change f ∈ w.store.files.filter _ ↔ _
    simp
  refine ⟨h.distinct.sublist (List.filter_sublist.map _), fun id' => ?_,
    fun id' content hcontent => ?_, fun f hf content hcontent => ?_⟩
  · rw [hretrieve]
    simp only [hfiles]
    split_ifs with hid
    · refine iff_of_false Bool.false_ne_true ?_
      rintro ⟨f, ⟨-, hne⟩, heq, -⟩
      exact hne (heq.trans hid)
    · rw [h.retrievable]
      refine exists_congr fun f => ?_
      constructor
      · rintro ⟨hf, rfl, hstatus⟩
        exact ⟨⟨hf, hid⟩, rfl, hstatus⟩
      · rintro ⟨⟨hf, -⟩, hrest⟩
        exact ⟨hf, hrest⟩
  · rw [hretrieve] at hcontent
    split_ifs at hcontent
    exact h.original id' content hcontent
  · obtain ⟨hf, hne⟩ := (hfiles f).mp hf
    rw [hretrieve, if_neg hne] at hcontent
    exact h.described f hf content hcontent

theorem Faithful.careful (h : w.Faithful ops) {call : Call}
    (hafter : (w.step ops call).Faithful ops) : w.Careful call := by
  cases call with
  | quarantine report content now =>
    exact ((nodup_quarantine ops w.store report content now).mp hafter.distinct).1
  | updateStatus id status notes =>
    intro f hf hid
    have hbefore := h.retrievable id
    have hlast := (hafter.retrievable id).trans
      (exists_relabelled_iff (relabels_updateStatus status notes) h.distinct id id)
    -- the contents are the same before and after
    have hsame := hbefore.symm.trans hlast
    have honly : ∀ f' ∈ w.store.files, f'.id = id → f' = f := fun f' hf' hid' =>
      List.inj_on_of_nodup_map h.distinct hf' hf (hid'.trans hid.symm)
    constructor
    · intro hreleased
      by_contra hne
      obtain ⟨f', hf', hid', hne'⟩ := hsame.mpr ⟨f, hf, hid, by rwa [if_pos hid]⟩
      exact hne' (honly f' hf' hid' ▸ hreleased)
    · intro hreleased
      by_contra hne
      obtain ⟨f', -, hid', hne'⟩ := hsame.mp ⟨f, hf, hid, hne⟩
      rw [if_pos hid'] at hne'
      exact hne' hreleased
  | release id analyst now => trivial
  | delete id => trivial

/-- **Content lifecycle.**  The contents agree with the records in every state of a run exactly when
each step of it takes a new id and leaves releases to `release`. -/
theorem faithful_throughout_iff (ops : FileOps) (calls : List Call) :
    Throughout (step ops) (Faithful ops) start calls ↔ Along (step ops) Careful start calls := by
  refine throughout_iff_along (I := Faithful ops) (fun w call h hcareful => ?_) (fun w h => h)
    (fun w call h => h.careful) ?_
  · cases call with
    | quarantine report content now => exact h.quarantine hcareful
    | updateStatus id status notes => exact h.updateStatus hcareful
    | release id analyst now => exact h.release id analyst now
    | delete id => exact h.delete id
  · refine ⟨List.nodup_nil, fun id => iff_of_false Bool.false_ne_true ?_, fun id content => ?_,
      fun f hf => absurd hf List.not_mem_nil⟩
    · rintro ⟨f, hf, -⟩
      exact List.not_mem_nil hf
    · exact nofun

/-- A file that `update_status` releases. -/
def quietRelease : List Call :=
  [.quarantine ⟨"/tmp/fp.bin", "suspicious", none, [], none, none⟩ [115, 97, 102, 101] "t",
    .updateStatus "q-1" .released none]

/-- Its content stays in the store. -/
theorem quietRelease_keeps_content : ¬ ∀ (ops : FileOps) (calls : List Call),
    Throughout (step ops) (Faithful ops) start calls := by
  intro h
  obtain ⟨-, hbefore, hafter⟩ := h ⟨fun _ => "", fun _ => "", fun _ => none⟩ quietRelease
  have hcareful := hbefore.careful hafter _ List.mem_cons_self (by decide)
  exact absurd hcareful (by decide)

end World

end Wardex.Quarantine
