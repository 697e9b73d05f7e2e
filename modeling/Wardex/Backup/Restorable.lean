import Mathlib.Data.List.Nodup
import Wardex.Backup.Manager
import Wardex.Lib.Run

/-! Listed backups can be restored, as long as no two of them are of the same second. -/

namespace Wardex.Backup

open Wardex.Lib

variable (enc : Encoding)

/-- The manager with a note of what every record was made of, the newest first. -/
structure Observed where
  manager : BackupManager
  log : List (BackupRecord × DateTime × Source)

namespace Observed

def start (config : BackupConfig) (fs : FileTree Bytes) : Observed := ⟨.new config fs, []⟩

/-- What the call adds to the log. -/
def logged (m : BackupManager) : Call → List (BackupRecord × DateTime × Source)
  | .create now source =>
    match (m.createBackup enc now source).2 with
    | .ok record => [(record, now, source)]
    | .error _ => []
  | _ => []

def step (o : Observed) (c : Call) : Observed :=
  ⟨Backup.step enc o.manager c, logged enc o.manager c ++ o.log⟩

/-- Without the log the run is the manager's own. -/
theorem run_manager (o : Observed) (calls : List Call) :
    (run (step enc) o calls).manager = run (Backup.step enc) o.manager calls := by
  induction calls generalizing o with
  | nil => rfl
  | cons c calls ih => exact ih (o.step enc c)

end Observed

/-! ### The invariant -/

/-- The directory of the record is the one that was made for it. -/
structure Kept (o : Observed) (r : BackupRecord) : Prop where
  made : ∃ now source, o.log.lookup r = some (now, source) ∧ now.year < 10000 ∧
    r.name = backupName now ∧ r.timestamp = now.toRfc3339 ∧
    HoldsFiles o.manager.fs r.name source
  state : HasState enc o.manager.fs r

/-- Records have names of their own, stand in the order of their timestamps and are kept. -/
structure Inv (o : Observed) : Prop where
  names : (o.manager.records.map BackupRecord.name).Nodup
  sorted : o.manager.records.Pairwise fun a b => a.timestamp ≤ b.timestamp
  kept : ∀ r ∈ o.manager.records, Kept enc o r

variable {enc}

theorem outside_of_ne {name other : String} (h : name ≠ other) (rest : List String) :
    Outside other (name :: rest) := by
  intro hprefix
  exact h (List.cons_prefix_cons.mp hprefix).1.symm

theorem HasState.frame {fs fs' : FileTree Bytes} {r : BackupRecord} (h : HasState enc fs r)
    (hfs : ∀ rest, fs'.lookup (r.name :: rest) = fs.lookup (r.name :: rest)) :
    HasState enc fs' r := by
  obtain ⟨data, hdata, hsum⟩ := h
  exact ⟨data, (hfs _).trans hdata, hsum⟩

theorem HoldsFiles.frame {fs fs' : FileTree Bytes} {name : String} {source : Source}
    (h : HoldsFiles fs name source)
    (hfs : ∀ rest, fs'.lookup (name :: rest) = fs.lookup (name :: rest)) :
    HoldsFiles fs' name source := by
  obtain ⟨files, hfiles, hrel⟩ := h
  refine ⟨files, hfiles, fun rel hmem => ?_⟩
  obtain ⟨data, hdata, hlookup⟩ := hrel rel hmem
  exact ⟨data, hdata, (hfs _).trans hlookup⟩

/-- A record is kept while its directory and its entry in the log stay. -/
theorem Kept.frame {o o' : Observed} {r : BackupRecord} (h : Kept enc o r)
    (hlog : o'.log.lookup r = o.log.lookup r)
    (hfs : ∀ rest, o'.manager.fs.lookup (r.name :: rest) = o.manager.fs.lookup (r.name :: rest)) :
    Kept enc o' r := by
  obtain ⟨now, source, hlookup, hyear, hname, htimestamp, hholds⟩ := h.made
  exact ⟨⟨now, source, hlog.trans hlookup, hyear, hname, htimestamp, hholds.frame hfs⟩,
    h.state.frame hfs⟩

/-- A kept record whose name is the only one is verified. -/
theorem Inv.verifyBackup {o : Observed} (h : Inv enc o) {r : BackupRecord}
    (hr : r ∈ o.manager.records) : o.manager.verifyBackup enc r.name = .ok true := by
  obtain ⟨data, hdata, hsum⟩ := (h.kept r hr).state
  have hfind : o.manager.records.find? (fun r' => r'.name = r.name) = some r := by
    cases hfound : o.manager.records.find? (fun r' => decide (r'.name = r.name)) with
    | none =>
      have hnone := List.find?_eq_none.mp hfound r hr
      exact absurd (decide_eq_true rfl) hnone
    | some r' =>
      have hname : r'.name = r.name := by simpa using List.find?_some hfound
      rw [List.inj_on_of_nodup_map h.names (List.mem_of_find?_eq_some hfound) hr hname]
  have hread : attempt "failed to compute checksum" (sha256File enc [r.name, "data.json"])
      o.manager.fs = .ok (enc.sha256 data) o.manager.fs := by
    refine adaptExcept_eq_ok.mpr (treeOp_bind_eq_ok.mpr ⟨data, o.manager.fs, ?_, rfl⟩)
    unfold readFile
    rw [hdata]
  simp only [BackupManager.verifyBackup, hfind, hdata, hread, hsum, decide_true]

/-! ### Pruning -/

/-- Records in order are pruned from the front. -/
theorem pruneOldBackups_of_sorted {m : BackupManager}
    (h : m.records.Pairwise fun a b => a.timestamp ≤ b.timestamp) :
    m.pruneOldBackups.1 =
      { m with
        records := m.records.drop (m.records.length - m.config.retentionCount)
        fs := (m.records.take (m.records.length - m.config.retentionCount)).foldl
          (fun fs rec => treeAfter (removeDirAll [rec.name]) fs) m.fs } := by
  have hsort : (m.records.mergeSort fun a b => decide (a.timestamp ≤ b.timestamp)) = m.records :=
    List.mergeSort_of_pairwise (h.imp fun hab => decide_eq_true hab)
  unfold BackupManager.pruneOldBackups
  by_cases hfew : m.records.length ≤ m.config.retentionCount
  · rw [if_pos hfew, Nat.sub_eq_zero_of_le hfew]
    rfl
  · rw [if_neg hfew, hsort]

/-- Removing the directories of records leaves those of other names alone. -/
theorem lookup_removed {pruned : List BackupRecord} {name : String}
    (h : ∀ r ∈ pruned, r.name ≠ name) (fs : FileTree Bytes) (rest : List String) :
    (pruned.foldl (fun fs rec => treeAfter (removeDirAll [rec.name]) fs) fs).lookup (name :: rest) =
      fs.lookup (name :: rest) := by
  induction pruned generalizing fs with
  | nil => rfl
  | cons r pruned ih =>
    have hr : Outside r.name (name :: rest) := outside_of_ne (h r List.mem_cons_self).symm rest
    rw [List.foldl_cons, ih fun r' hr' => h r' (List.mem_cons_of_mem r hr')]
    exact leaves_removeDirAll (P := Outside r.name) (fun _ hother => hother) fs _ hr

/-- `r` was made no later than `r'`. -/
def Observed.NotYounger (o : Observed) (r r' : BackupRecord) : Prop :=
  ∃ now source now' source', o.log.lookup r = some (now, source) ∧
    o.log.lookup r' = some (now', source') ∧ now ≤ now'

def Observed.prune (o : Observed) : Observed := ⟨o.manager.pruneOldBackups.1, o.log⟩

theorem Inv.notYounger {o : Observed} (h : Inv enc o) {r r' : BackupRecord}
    (hr : r ∈ o.manager.records) (hr' : r' ∈ o.manager.records)
    (hle : r.timestamp ≤ r'.timestamp) : o.NotYounger r r' := by
  obtain ⟨now, source, hlookup, hyear, -, htimestamp, -⟩ := (h.kept r hr).made
  obtain ⟨now', source', hlookup', hyear', -, htimestamp', -⟩ := (h.kept r' hr').made
  rw [htimestamp, htimestamp'] at hle
  exact ⟨now, source, now', source', hlookup, hlookup',
    (DateTime.toRfc3339_le_iff hyear hyear').mp hle⟩

/-- Pruning keeps the invariant, leaves at most as many records as are to be kept, and removes
none that is younger than one that stays. -/
theorem Inv.prune {o : Observed} (h : Inv enc o) :
    Inv enc o.prune ∧
      o.prune.manager.records.length ≤ o.manager.config.retentionCount ∧
      (∀ r ∈ o.prune.manager.records, r ∈ o.manager.records) ∧
      ∀ r ∈ o.manager.records, r ∉ o.prune.manager.records → ∀ r' ∈ o.prune.manager.records,
        o.prune.NotYounger r r' := by
  let n := o.manager.records.length - o.manager.config.retentionCount
  have hcut : o.manager.records.take n ++ o.manager.records.drop n = o.manager.records :=
    List.take_append_drop n _
  have hprune := pruneOldBackups_of_sorted h.sorted
  have hrecords : o.prune.manager.records = o.manager.records.drop n := by
    rw [Observed.prune, hprune]
  have hmem : ∀ r ∈ o.prune.manager.records, r ∈ o.manager.records := by
    rw [hrecords]
    exact fun r hr => List.mem_of_mem_drop hr
  refine ⟨⟨?_, ?_, ?_⟩, ?_, hmem, ?_⟩
  · rw [hrecords, List.map_drop]
    exact h.names.drop
  · rw [hrecords]
    exact h.sorted.drop
  · intro r hr
    refine (h.kept r (hmem r hr)).frame rfl fun rest => ?_
    have hnames : ∀ r' ∈ o.manager.records.take n, r'.name ≠ r.name := by
      intro r' hr' heq
      have hnodup := h.names
      rw [← hcut, List.map_append, List.nodup_append] at hnodup
      rw [hrecords] at hr
      exact hnodup.2.2 _ (List.mem_map_of_mem hr') _ (List.mem_map_of_mem hr) heq
    have hfs : o.prune.manager.fs = (o.manager.records.take n).foldl
        (fun fs rec => treeAfter (removeDirAll [rec.name]) fs) o.manager.fs := by
      rw [Observed.prune, hprune]
    rw [hfs, lookup_removed hnames]
  · rw [hrecords, List.length_drop]
    omega
  · intro r hr hgone r' hr'
    refine h.notYounger hr (hmem r' hr') ?_
    rw [hrecords] at hgone hr'
    have hsorted := h.sorted
    rw [← hcut, List.pairwise_append] at hsorted
    rw [← hcut] at hr
    exact hsorted.2.2 r ((List.mem_append.mp hr).resolve_right hgone) r' hr'

/-! ### Deleting -/

theorem name_ne_of_mem_eraseP {records : List BackupRecord} {name : String}
    (h : (records.map BackupRecord.name).Nodup) {r : BackupRecord}
    (hr : r ∈ records.eraseP fun r => r.name = name) : r.name ≠ name := by
  induction records with
  | nil => exact absurd hr List.not_mem_nil
  | cons first records ih =>
    rw [List.map_cons, List.nodup_cons] at h
    by_cases hfirst : first.name = name
    · rw [List.eraseP_cons_of_pos (p := fun r : BackupRecord => decide (r.name = name))
        (decide_eq_true hfirst)] at hr
      exact fun hname => h.1 (hfirst.trans hname.symm ▸ List.mem_map_of_mem hr)
    · rw [List.eraseP_cons_of_neg (p := fun r : BackupRecord => decide (r.name = name))
        (by simpa using hfirst)] at hr
      rcases List.mem_cons.mp hr with rfl | hr
      · exact hfirst
      · exact ih h.2 hr

/-- What `delete_backup` leaves: the records without the first of the name, and the tree outside of
its directory; or the records as they were. -/
theorem deleteBackup_cases (m : BackupManager) (name : String) :
    ((m.deleteBackup name).1.records = m.records ∧
        ∀ path, (m.deleteBackup name).1.fs.lookup path = m.fs.lookup path) ∨
      ((m.deleteBackup name).1.records = m.records.eraseP (fun r => r.name = name) ∧
        ∀ path, Outside name path →
          (m.deleteBackup name).1.fs.lookup path = m.fs.lookup path) := by
  unfold BackupManager.deleteBackup
  rw [List.eraseP_eq_eraseIdx]
  cases hidx : m.records.findIdx? fun r => r.name = name with
  | none => exact Or.inl ⟨rfl, fun _ => rfl⟩
  | some idx =>
    cases hdir : m.fs.lookup [name] with
    | none => exact Or.inr ⟨rfl, fun _ _ => rfl⟩
    | some node =>
      cases node with
      | file content =>
        have hfails : attempt "failed to remove backup dir" (removeDirAll [name]) m.fs =
            .error ("failed to remove backup dir" ++ ": " ++ errorText .notADirectory) m.fs := by
          simp only [attempt, EStateM.adaptExcept, removeDirAll, hdir]
        rw [hfails]
        exact Or.inl ⟨rfl, fun _ => rfl⟩
      | dir =>
        have hremoved : attempt "failed to remove backup dir" (removeDirAll [name]) m.fs =
            .ok () (m.fs.without [name]) := by
          simp only [attempt, EStateM.adaptExcept, removeDirAll, hdir]
        rw [hremoved]
        exact Or.inr ⟨rfl, fun path hpath => m.fs.lookup_without hpath⟩

theorem deleteBackup_config (m : BackupManager) (name : String) :
    (m.deleteBackup name).1.config = m.config := by
  unfold BackupManager.deleteBackup
  split
  · rfl
  · split
    · rfl
    · split <;> rfl

/-- Deleting a backup keeps the invariant. -/
theorem Inv.delete {o : Observed} (h : Inv enc o) (name : String) :
    Inv enc ⟨(o.manager.deleteBackup name).1, o.log⟩ ∧
      (o.manager.deleteBackup name).1.records.length ≤ o.manager.records.length := by
  rcases deleteBackup_cases o.manager name with ⟨hrecords, hfs⟩ | ⟨hrecords, hfs⟩
  · refine ⟨⟨?_, ?_, fun r hr => ?_⟩, Nat.le_of_eq (congrArg List.length hrecords)⟩
    · exact hrecords ▸ h.names
    · exact hrecords ▸ h.sorted
    · exact (h.kept r (hrecords ▸ hr)).frame rfl fun rest => hfs _
  · have hsub : (o.manager.deleteBackup name).1.records.Sublist o.manager.records :=
      hrecords ▸ List.eraseP_sublist
    refine ⟨⟨h.names.sublist (hsub.map _), h.sorted.sublist hsub, fun r hr => ?_⟩,
      hsub.length_le⟩
    have hname : r.name ≠ name := name_ne_of_mem_eraseP h.names (hrecords ▸ hr)
    exact (h.kept r (hsub.subset hr)).frame rfl fun rest => hfs _ (outside_of_ne hname rest)

/-! ### Creating -/

/-- No listed backup is of the second. -/
def Observed.Fresh (o : Observed) (now : DateTime) : Prop :=
  now.year < 10000 ∧ ∀ r ∈ o.manager.records, ∀ then' source,
    o.log.lookup r = some (then', source) → then'.toSecond ≠ now.toSecond

def Observed.push (o : Observed) (record : BackupRecord) (now : DateTime) (source : Source)
    (fs : FileTree Bytes) : Observed :=
  ⟨{ o.manager with records := o.manager.records ++ [record], fs := fs },
    (record, now, source) :: o.log⟩

theorem backupName_ne {now then' : DateTime} (h : now.year < 10000) (h' : then'.year < 10000)
    (hne : then'.toSecond ≠ now.toSecond) : backupName then' ≠ backupName now := by
  intro heq
  have hlist := congrArg String.toList heq
  simp only [backupName, String.toList_append, List.append_cancel_left_eq,
    String.toList_ofList] at hlist
  exact hne ((DateTime.compact_eq_iff h' h).mp hlist)

/-- The names of the records are not the one of a fresh time. -/
theorem Inv.name_ne {o : Observed} (h : Inv enc o) {now : DateTime} (hfresh : o.Fresh now)
    {r : BackupRecord} (hr : r ∈ o.manager.records) : r.name ≠ backupName now := by
  obtain ⟨then', source, hlookup, hyear, hname, -⟩ := (h.kept r hr).made
  rw [hname]
  exact backupName_ne hfresh.1 hyear (hfresh.2 r hr then' source hlookup)

/-- At a fresh time what a backup writes leaves the records alone, whether it succeeds or not. -/
theorem Inv.lookup_writeBackup {o : Observed} (h : Inv enc o) {now : DateTime}
    (hfresh : o.Fresh now) (source : Source) {r : BackupRecord} (hr : r ∈ o.manager.records)
    (rest : List String) :
    (treeAfter (writeBackup enc now source) o.manager.fs).lookup (r.name :: rest) =
      o.manager.fs.lookup (r.name :: rest) :=
  leaves_writeBackup now source _ _ (outside_of_ne (h.name_ne hfresh hr) rest)

theorem Inv.push {o : Observed} (h : Inv enc o) {now : DateTime} (hfresh : o.Fresh now)
    (hlater : ∀ r ∈ o.manager.records, ∀ then' source, o.log.lookup r = some (then', source) →
      then' ≤ now) {source : Source} {record : BackupRecord} {fs : FileTree Bytes}
    (hwrite : writeBackup enc now source o.manager.fs = .ok record fs) :
    Inv enc (o.push record now source fs) := by
  obtain ⟨hname, htimestamp, hstate, hholds⟩ := writeBackup_eq_ok hwrite
  have hfs : treeAfter (writeBackup enc now source) o.manager.fs = fs := by
    unfold treeAfter
    rw [hwrite]
  have hne : ∀ r ∈ o.manager.records, r.name ≠ record.name := by
    intro r hr
    rw [hname]
    exact h.name_ne hfresh hr
  refine ⟨?_, ?_, ?_⟩
  · show ((o.manager.records ++ [record]).map BackupRecord.name).Nodup
    rw [List.map_append, List.map_singleton, List.nodup_append]
    refine ⟨h.names, List.nodup_singleton _, ?_⟩
    intro n hn n' hn'
    obtain ⟨r, hr, rfl⟩ := List.mem_map.mp hn
    rw [List.mem_singleton.mp hn']
    exact hne r hr
  · show (o.manager.records ++ [record]).Pairwise _
    rw [List.pairwise_append]
    refine ⟨h.sorted, List.pairwise_singleton _ _, ?_⟩
    intro r hr r' hr'
    obtain ⟨then', source', hlookup, hyear, -, htimestamp', -⟩ := (h.kept r hr).made
    rw [List.mem_singleton.mp hr', htimestamp, htimestamp',
      DateTime.toRfc3339_le_iff hyear hfresh.1]
    exact hlater r hr then' source' hlookup
  · intro r hr
    rcases List.mem_append.mp hr with hr | hr
    · refine (h.kept r hr).frame ?_ fun rest => ?_
      · have hbeq : (r == record) = false :=
          beq_eq_false_iff_ne.mpr fun heq => hne r hr (congrArg BackupRecord.name heq)
        simp only [Observed.push, List.lookup_cons, hbeq]
      · show fs.lookup (r.name :: rest) = _
        rw [← hfs]
        exact h.lookup_writeBackup hfresh source hr rest
    · rw [List.mem_singleton.mp hr]
      exact ⟨⟨now, source, List.lookup_cons_self, hfresh.1, hname, htimestamp, hholds⟩, hstate⟩

/-! ### Every call -/

/-- The calls after which old backups have been pruned. -/
def Call.prunes : Call → Bool
  | .create _ _ => true
  | .prune => true
  | .delete _ => false

/-- The time of the call, for the calls that read the clock. -/
def Call.time : Call → Option DateTime
  | .create now _ => some now
  | _ => none

variable (enc)

/-- The backup is verified, and its directory holds the files that were copied for it. -/
def Observed.Restorable (o : Observed) (r : BackupRecord) : Prop :=
  o.manager.verifyBackup enc r.name = .ok true ∧
    ∃ now source, o.log.lookup r = some (now, source) ∧ HoldsFiles o.manager.fs r.name source

/-- What a call leaves: listed backups that can be restored, and after pruning no more of them than
are to be kept, from which only the oldest were removed. -/
structure Sound (o : Observed) (c : Call) : Prop where
  restorable : ∀ r ∈ (o.step enc c).manager.listBackups, (o.step enc c).Restorable enc r
  bounded : c.prunes → (o.step enc c).manager.records.length ≤ o.manager.config.retentionCount
  oldest : c.prunes → ∀ r ∈ o.manager.records, r ∉ (o.step enc c).manager.records →
    ∀ r' ∈ (o.step enc c).manager.records, (o.step enc c).NotYounger r r'

/-- A backup is created only in a second of which no backup is listed. -/
def OnePerSecond (o : Observed) (c : Call) : Prop := ∀ now, c.time = some now → o.Fresh now

/-- The clock has not gone back behind a listed backup. -/
def NotEarlier (o : Observed) (c : Call) : Prop :=
  ∀ now, c.time = some now → ∀ e ∈ o.log, e.2.1 ≤ now

variable {enc}

theorem Inv.restorable {o : Observed} (h : Inv enc o) :
    ∀ r ∈ o.manager.listBackups, o.Restorable enc r := by
  intro r hr
  have hmem : r ∈ o.manager.records := List.mem_mergeSort.mp hr
  obtain ⟨now, source, hlookup, -, -, -, hholds⟩ := (h.kept r hmem).made
  exact ⟨h.verifyBackup hmem, now, source, hlookup, hholds⟩

theorem mem_log_of_lookup {o : Observed} {r : BackupRecord} {e : DateTime × Source}
    (h : o.log.lookup r = some e) : (r, e) ∈ o.log := by
  obtain ⟨before, after, hlog, -⟩ := List.lookup_eq_some_iff.mp h
  rw [hlog]
  exact List.mem_append_right before List.mem_cons_self

/-- A call that pruned the state `o'`. -/
theorem sound_of_prune {o o' : Observed} {c : Call} (h : Inv enc o')
    (hstep : o.step enc c = o'.prune) (hconfig : o'.manager.config = o.manager.config)
    (hrecords : ∀ r ∈ o.manager.records, r ∈ o'.manager.records) :
    Inv enc (o.step enc c) ∧
      (o.step enc c).manager.records.length ≤ o.manager.config.retentionCount ∧
      Sound enc o c := by
  obtain ⟨hinv, hbounded, -, holdest⟩ := h.prune
  rw [hconfig] at hbounded
  rw [← hstep] at hinv hbounded holdest
  exact ⟨hinv, hbounded, hinv.restorable, fun _ => hbounded,
    fun _ r hr => holdest r (hrecords r hr)⟩

/-- Every call of the kind keeps the invariant. -/
theorem Inv.step {o : Observed} {c : Call} (h : Inv enc o)
    (hbounded : o.manager.records.length ≤ o.manager.config.retentionCount)
    (hfresh : OnePerSecond o c) (hlater : NotEarlier o c) :
    Inv enc (o.step enc c) ∧
      (o.step enc c).manager.records.length ≤ o.manager.config.retentionCount ∧
      Sound enc o c := by
  cases c with
  | prune => exact sound_of_prune h rfl rfl fun _ hr => hr
  | delete name =>
    obtain ⟨hinv, hlength⟩ := h.delete name
    have hlength' := Nat.le_trans hlength hbounded
    exact ⟨hinv, hlength', hinv.restorable, fun hprunes => absurd hprunes Bool.false_ne_true,
      fun hprunes => absurd hprunes Bool.false_ne_true⟩
  | create now source =>
    have hnow := hfresh now rfl
    cases hwrite : writeBackup enc now source o.manager.fs with
    | ok record fs =>
      have hstep : o.step enc (.create now source) = (o.push record now source fs).prune := by
        simp only [Observed.step, Backup.step, Observed.logged, BackupManager.createBackup, hwrite]
        rfl
      refine sound_of_prune (h.push hnow ?_ hwrite) hstep rfl ?_
      · exact fun r hr then' source' hlookup => hlater now rfl _ (mem_log_of_lookup hlookup)
      · exact fun r hr => List.mem_append_left _ hr
    | error e fs =>
      have hstep : o.step enc (.create now source) = ⟨{ o.manager with fs := fs }, o.log⟩ := by
        simp only [Observed.step, Backup.step, Observed.logged, BackupManager.createBackup, hwrite]
        rfl
      have hfs : treeAfter (writeBackup enc now source) o.manager.fs = fs := by
        unfold treeAfter
        rw [hwrite]
      have hinv : Inv enc (o.step enc (.create now source)) := by
        rw [hstep]
        refine ⟨h.names, h.sorted, fun r hr => (h.kept r hr).frame rfl fun rest => ?_⟩
        rw [← hfs]
        exact h.lookup_writeBackup hnow source hr rest
      have hrecords : (o.step enc (.create now source)).manager.records = o.manager.records := by
        rw [hstep]
      have hbounded' := hrecords ▸ hbounded
      refine ⟨hinv, hbounded', hinv.restorable, fun _ => hbounded', fun _ r hr hgone => ?_⟩
      exact absurd (hrecords ▸ hr) hgone

theorem config_step (o : Observed) (c : Call) :
    (o.step enc c).manager.config = o.manager.config := by
  have hprune (m : BackupManager) : m.pruneOldBackups.1.config = m.config := by
    simp only [BackupManager.pruneOldBackups]
    split <;> rfl
  cases c with
  | create now source =>
    show (o.manager.createBackup enc now source).1.config = _
    unfold BackupManager.createBackup
    split
    · rfl
    · exact hprune _
  | prune => exact hprune o.manager
  | delete name => exact deleteBackup_config o.manager name

theorem time_of_mem_logged {m : BackupManager} {now : DateTime} {source : Source}
    {e : BackupRecord × DateTime × Source}
    (h : e ∈ Observed.logged enc m (.create now source)) : e.2.1 = now := by
  simp only [Observed.logged] at h
  split at h
  · rw [List.mem_singleton.mp h]
  · exact absurd h List.not_mem_nil

/-- At times that do not decrease no call is earlier than a backup of the log. -/
theorem along_notEarlier {o : Observed} {calls : List Call}
    (hlog : ∀ e ∈ o.log, ∀ t ∈ calls.filterMap Call.time, e.2.1 ≤ t)
    (htimes : (calls.filterMap Call.time).Pairwise (· ≤ ·)) :
    Along (Observed.step enc) NotEarlier o calls := by
  induction calls generalizing o with
  | nil => trivial
  | cons c calls ih =>
    have hhead : NotEarlier o c := fun now hnow e he => hlog e he now (by simp [hnow])
    have hrest : ∀ e ∈ o.log, ∀ t ∈ calls.filterMap Call.time, e.2.1 ≤ t := by
      intro e he t ht
      obtain ⟨c', hc', htime⟩ := List.mem_filterMap.mp ht
      exact hlog e he t (List.mem_filterMap.mpr ⟨c', List.mem_cons_of_mem c hc', htime⟩)
    rw [List.filterMap_cons] at htimes
    cases c with
    | create now source =>
      obtain ⟨hnow, htimes'⟩ := List.pairwise_cons.mp htimes
      refine ⟨hhead, ih (fun e he => ?_) htimes'⟩
      rcases List.mem_append.mp he with he | he
      · rw [time_of_mem_logged he]
        exact hnow
      · exact hrest e he
    | prune => exact ⟨hhead, ih hrest htimes⟩
    | delete name => exact ⟨hhead, ih hrest htimes⟩

/-- A concrete way to write a backup: the state is its timestamp, and the digest the bytes as
characters. -/
def plain : Encoding where
  manifest _ _ _ := []
  state _ timestamp _ _ := timestamp.toList.map fun c => c.val.toUInt8
  sha256 data := String.ofList (data.map fun b => Char.ofNat b.toNat)

def oneFile : Source where
  path := "/etc/wardex"
  files := .ok [["config.toml"]]
  read rel :=
    if rel = ["config.toml"] then .ok [80] else .error "No such file or directory (os error 2)"

/-- A time on the fifth of January 2026, in the first minute after ten. -/
def atSecond (second nano : ℕ) (h : second < 60) (h' : nano < 10 ^ 9) : DateTime :=
  ⟨2026, 1, 5, 10, 0, second, nano, by decide, by decide, by decide, by decide, h, h'⟩

def early : DateTime := atSecond 0 250000000 (by decide) (by decide)
def late : DateTime := atSecond 0 750000000 (by decide) (by decide)
def next : DateTime := atSecond 1 250000000 (by decide) (by decide)

/-- Two backups of one second. -/
def sameSecond : List Call := [.create early oneFile, .create late oneFile]

end Wardex.Backup
