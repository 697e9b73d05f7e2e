import Mathlib.Data.List.Sort
import Wardex.Lib.FileTree
import Wardex.Lib.FixedWidth

/-! The backup manager.  Times of day are written in the names of backups to the second, and as
timestamps in RFC 3339, whose texts are ordered like the times.  Paths are below the directory of
the backups; a file is its bytes.  A backup writes nothing outside of its own directory, and in it
the files of the source and a state with the digest of the record. -/

namespace Wardex.Backup

open Wardex.Lib

/-- A time in UTC. -/
structure DateTime where
  year : ℕ
  month : ℕ
  day : ℕ
  hour : ℕ
  minute : ℕ
  second : ℕ
  nano : ℕ
  month_le : month ≤ 12
  day_le : day ≤ 31
  hour_lt : hour < 24
  minute_lt : minute < 60
  second_lt : second < 60
  nano_lt : nano < 10 ^ 9
deriving DecidableEq

namespace DateTime

/-- From the year to the nanosecond. -/
def fields (t : DateTime) : List ℕ :=
  [t.year, t.month, t.day, t.hour, t.minute, t.second, t.nano]

/-- The time without its fraction of a second. -/
def toSecond (t : DateTime) : List ℕ := [t.year, t.month, t.day, t.hour, t.minute, t.second]

theorem fields_injective : Function.Injective fields := by
  intro t t' h
  cases t
  cases t'
  simp only [fields, List.cons.injEq] at h
  obtain ⟨rfl, rfl, rfl, rfl, rfl, rfl, rfl, -⟩ := h
  rfl

instance : LE DateTime := ⟨fun t t' => t.fields ≤ t'.fields⟩

theorem le_def {t t' : DateTime} : t ≤ t' ↔ t.fields ≤ t'.fields := Iff.rfl

/-- From the year 10000 on a year has a sign and five or more digits. -/
def yearText (year : ℕ) : List Char :=
  if year < 10000 then digits 4 year else '+' :: Nat.toDigits 10 year

/-- `%Y%m%d-%H%M%S` -/
def compact (t : DateTime) : List Char :=
  yearText t.year ++ (digits 2 t.month ++ (digits 2 t.day ++ '-' :: (digits 2 t.hour ++
    (digits 2 t.minute ++ digits 2 t.second))))

/-- How many places of the fraction `to_rfc3339` writes: as many groups of three as are needed. -/
def precision (nano : ℕ) : ℕ :=
  if nano = 0 then 0 else if nano % 10 ^ 6 = 0 then 3 else if nano % 10 ^ 3 = 0 then 6 else 9

/-- The offset of UTC behind its sign. -/
def utcOffset : List Char := "00:00".toList

def toRfc3339 (t : DateTime) : String :=
  String.ofList (yearText t.year ++ '-' :: (digits 2 t.month ++ '-' :: (digits 2 t.day ++ 'T' ::
    (digits 2 t.hour ++ ':' :: (digits 2 t.minute ++ ':' :: (digits 2 t.second ++
      (fraction 9 (precision t.nano) t.nano ++ '+' :: utcOffset)))))))

theorem keeps_precision (nano : ℕ) : Keeps 9 (precision nano) nano := by
  unfold precision Keeps
  split_ifs with h0 h6 h3
  · exact ⟨by decide, by rw [h0, Nat.zero_mod]⟩
  · exact ⟨by decide, h6⟩
  · exact ⟨by decide, h3⟩
  · exact ⟨by decide, Nat.mod_one nano⟩

theorem month_lt (t : DateTime) : t.month < 10 ^ 2 := Nat.lt_of_le_of_lt t.month_le (by decide)
theorem day_lt (t : DateTime) : t.day < 10 ^ 2 := Nat.lt_of_le_of_lt t.day_le (by decide)
theorem hour_fits (t : DateTime) : t.hour < 10 ^ 2 := Nat.lt_trans t.hour_lt (by decide)
theorem minute_fits (t : DateTime) : t.minute < 10 ^ 2 := Nat.lt_trans t.minute_lt (by decide)
theorem second_fits (t : DateTime) : t.second < 10 ^ 2 := Nat.lt_trans t.second_lt (by decide)

theorem yearText_of_lt {year : ℕ} (h : year < 10000) : yearText year = digits 4 year := if_pos h

/-- The name of a backup tells the second. -/
theorem compact_eq_iff {t t' : DateTime} (h : t.year < 10000) (h' : t'.year < 10000) :
    t.compact = t'.compact ↔ t.toSecond = t'.toSecond := by
  constructor
  · intro heq
    unfold compact at heq
    rw [yearText_of_lt h, yearText_of_lt h'] at heq
    obtain ⟨hyear, heq⟩ := List.append_inj heq (by rw [length_digits, length_digits])
    obtain ⟨hmonth, heq⟩ := List.append_inj heq (by rw [length_digits, length_digits])
    obtain ⟨hday, heq⟩ := List.append_inj heq (by rw [length_digits, length_digits])
    obtain ⟨-, heq⟩ := List.cons.inj heq
    obtain ⟨hhour, heq⟩ := List.append_inj heq (by rw [length_digits, length_digits])
    obtain ⟨hminute, hsecond⟩ := List.append_inj heq (by rw [length_digits, length_digits])
    have hfour : t.year < 10 ^ 4 := h
    have hfour' : t'.year < 10 ^ 4 := h'
    rw [toSecond, toSecond, digits_injective hfour hfour' hyear,
      digits_injective t.month_lt t'.month_lt hmonth, digits_injective t.day_lt t'.day_lt hday,
      digits_injective t.hour_fits t'.hour_fits hhour,
      digits_injective t.minute_fits t'.minute_fits hminute,
      digits_injective t.second_fits t'.second_fits hsecond]
  · intro heq
    simp only [toSecond, List.cons.injEq] at heq
    obtain ⟨hyear, hmonth, hday, hhour, hminute, hsecond, -⟩ := heq
    rw [compact, compact, hyear, hmonth, hday, hhour, hminute, hsecond]

/-- Timestamps are ordered as texts like the times. -/
theorem toRfc3339_lt {t t' : DateTime} (h : t.year < 10000) (h' : t'.year < 10000)
    (hlt : t.fields < t'.fields) : t.toRfc3339 < t'.toRfc3339 := by
  have hyear : t.year < 10 ^ 4 := h
  have hyear' : t'.year < 10 ^ 4 := h'
  have hnano (hn : t.nano < t'.nano) := fraction_append_lt (keeps_precision t.nano)
    (keeps_precision t'.nano) t.nano_lt t'.nano_lt hn utcOffset
  rw [String.lt_iff_toList_lt, toRfc3339, toRfc3339, String.toList_ofList, String.toList_ofList,
    yearText_of_lt h, yearText_of_lt h', digits_append_lt hyear hyear', List.cons_lt_cons_iff,
    digits_append_lt t.month_lt t'.month_lt, List.cons_lt_cons_iff,
    digits_append_lt t.day_lt t'.day_lt, List.cons_lt_cons_iff,
    digits_append_lt t.hour_fits t'.hour_fits, List.cons_lt_cons_iff,
    digits_append_lt t.minute_fits t'.minute_fits, List.cons_lt_cons_iff,
    digits_append_lt t.second_fits t'.second_fits]
  simp only [fields, List.cons_lt_cons_iff, lt_irrefl, false_or, true_and, and_false,
    or_false] at hlt ⊢
  rcases hlt with hlt | ⟨hyear, hlt | ⟨hmonth, hlt | ⟨hday, hlt | ⟨hhour, hlt | ⟨hminute, hlt |
    ⟨hsecond, hlt⟩⟩⟩⟩⟩⟩
  · exact Or.inl hlt
  · exact Or.inr ⟨hyear, Or.inl hlt⟩
  · exact Or.inr ⟨hyear, Or.inr ⟨hmonth, Or.inl hlt⟩⟩
  · exact Or.inr ⟨hyear, Or.inr ⟨hmonth, Or.inr ⟨hday, Or.inl hlt⟩⟩⟩
  · exact Or.inr ⟨hyear, Or.inr ⟨hmonth, Or.inr ⟨hday, Or.inr ⟨hhour, Or.inl hlt⟩⟩⟩⟩
  · exact Or.inr ⟨hyear, Or.inr ⟨hmonth, Or.inr ⟨hday, Or.inr ⟨hhour, Or.inr ⟨hminute,
      Or.inl hlt⟩⟩⟩⟩⟩
  · exact Or.inr ⟨hyear, Or.inr ⟨hmonth, Or.inr ⟨hday, Or.inr ⟨hhour, Or.inr ⟨hminute,
      Or.inr ⟨hsecond, hnano hlt⟩⟩⟩⟩⟩⟩

theorem toRfc3339_le_iff {t t' : DateTime} (h : t.year < 10000) (h' : t'.year < 10000) :
    t.toRfc3339 ≤ t'.toRfc3339 ↔ t ≤ t' := by
  rw [le_def]
  constructor
  · intro hle
    exact le_of_not_gt fun hlt => absurd (toRfc3339_lt h' h hlt) (not_lt_of_ge hle)
  · intro hle
    rcases lt_or_eq_of_le hle with hlt | heq
    · exact le_of_lt (toRfc3339_lt h h' hlt)
    · rw [fields_injective heq]

end DateTime

/-! ## The manager -/

abbrev Bytes := List UInt8

/-- What fails gives the text of its error. -/
abbrev Fs := TreeOp Bytes String

structure BackupConfig where
  retentionCount : ℕ

def BackupConfig.default : BackupConfig := ⟨7⟩

structure BackupRecord where
  name : String
  timestamp : String
  sizeBytes : ℕ
  checksum : String
  verified : Bool
deriving DecidableEq

structure BackupManager where
  config : BackupConfig
  records : List BackupRecord
  fs : FileTree Bytes

/-- The directory that is backed up: the paths of its files, or why it cannot be read, and what is
read from each of them. -/
structure Source where
  path : String
  files : Except String (List (List String))
  read : List String → Except String Bytes

/-- How the two files of a backup that are not copies are written, and the digest in hexadecimal. -/
structure Encoding where
  manifest : (timestamp source : String) → (files : List String) → Bytes
  state : (backupName timestamp : String) → (fileCount : ℕ) → (files : List String) → Bytes
  sha256 : Bytes → String

variable (enc : Encoding)

def backupName (now : DateTime) : String := "wardex-backup-" ++ String.ofList now.compact

/-- `rel` as it is listed. -/
def relText (rel : List String) : String := "/".intercalate rel

def errorText : FileError → String
  | .alreadyExists => "File exists (os error 17)"
  | .notADirectory => "Not a directory (os error 20)"
  | .isADirectory => "Is a directory (os error 21)"
  | .notFound => "No such file or directory (os error 2)"

/-- An error is reported behind what was tried. -/
def attempt {α : Type} (what : String) (op : FileOp Bytes α) : Fs α :=
  op.adaptExcept fun e => what ++ ": " ++ errorText e

def orFail {α : Type} (what : String) : Except String α → Fs α
  | .ok a => pure a
  | .error e => throw (what ++ ": " ++ e)

def sha256File (path : List String) : FileOp Bytes String := do
  let data ← readFile path
  pure (enc.sha256 data)

/-- The bytes of all files below the path. -/
def dirSize (path : List String) (t : FileTree Bytes) : ℕ :=
  (t.nodes.map fun e => if path <+: e.1 then
    match e.2 with
    | .file data => data.length
    | .dir => 0
  else 0).sum

def copyFile (source : Source) (dataDir rel : List String) : Fs Unit := do
  let parent := (dataDir ++ rel).dropLast
  attempt ("failed to create dir " ++ relText parent) (createDirAll parent)
  let data ← orFail ("failed to copy " ++ relText rel) (source.read rel)
  attempt ("failed to copy " ++ relText rel) (writeFile (dataDir ++ rel) data)

def copyFiles (source : Source) (dataDir : List String) : List (List String) → Fs Unit
  | [] => pure ()
  | rel :: files => do
    copyFile source dataDir rel
    copyFiles source dataDir files

/-- What `create_backup` does before it keeps the record. -/
def writeBackup (now : DateTime) (source : Source) : Fs BackupRecord := do
  let name := backupName now
  attempt "failed to create backup dir" (createDirAll [name])
  let files ← orFail "failed to read source dir" source.files
  let fileNames := files.map relText
  attempt "failed to write manifest"
    (writeFile [name, "manifest.json"] (enc.manifest now.toRfc3339 source.path fileNames))
  copyFiles source [name, "data"] files
  attempt "failed to write data.json"
    (writeFile [name, "data.json"] (enc.state name now.toRfc3339 files.length fileNames))
  let checksum ← attempt "failed to compute checksum" (sha256File enc [name, "data.json"])
  let fs ← get
  pure ⟨name, now.toRfc3339, dirSize [name] fs, checksum, true⟩

namespace BackupManager

variable (m : BackupManager)

def new (config : BackupConfig) (fs : FileTree Bytes) : BackupManager := ⟨config, [], fs⟩

/-- Removed backups are named whether their directory could be removed or not. -/
def pruneOldBackups : BackupManager × List String :=
  let retention := m.config.retentionCount
  if m.records.length ≤ retention then (m, [])
  else
    let sorted := m.records.mergeSort fun a b => decide (a.timestamp ≤ b.timestamp)
    let toRemove := m.records.length - retention
    let pruned := sorted.take toRemove
    let fs := pruned.foldl (fun fs rec => treeAfter (removeDirAll [rec.name]) fs) m.fs
    ({ m with records := sorted.drop toRemove, fs := fs }, pruned.map BackupRecord.name)

def createBackup (now : DateTime) (source : Source) : BackupManager × Except String BackupRecord :=
  match writeBackup enc now source m.fs with
  | .error e fs => ({ m with fs := fs }, .error e)
  | .ok record fs =>
    ({ m with records := m.records ++ [record], fs := fs }.pruneOldBackups.1, .ok record)

/-- The newest first. -/
def listBackups : List BackupRecord :=
  m.records.mergeSort fun a b => decide (b.timestamp ≤ a.timestamp)

def verifyBackup (name : String) : Except String Bool :=
  match m.records.find? fun r => r.name = name with
  | none => .error ("backup not found: " ++ name)
  | some record =>
    match m.fs.lookup [name, "data.json"] with
    | none => .error ("data.json missing for backup: " ++ name)
    | some _ =>
      match attempt "failed to compute checksum" (sha256File enc [name, "data.json"]) m.fs with
      | .ok checksum _ => .ok (checksum = record.checksum)
      | .error e _ => .error e

def deleteBackup (name : String) : BackupManager × Except String Unit :=
  match m.records.findIdx? fun r => r.name = name with
  | none => (m, .error ("backup not found: " ++ name))
  | some idx =>
    match m.fs.lookup [name] with
    | none => ({ m with records := m.records.eraseIdx idx }, .ok ())
    | some _ =>
      match attempt "failed to remove backup dir" (removeDirAll [name]) m.fs with
      | .error e fs => ({ m with fs := fs }, .error e)
      | .ok _ fs => ({ m with records := m.records.eraseIdx idx, fs := fs }, .ok ())

end BackupManager

inductive Call where
  | create (now : DateTime) (source : Source)
  | prune
  | delete (name : String)

def step (m : BackupManager) : Call → BackupManager
  | .create now source => (m.createBackup enc now source).1
  | .prune => m.pruneOldBackups.1
  | .delete name => (m.deleteBackup name).1

/-! ## What is written -/

/-- The digest of the backup is right. -/
def HasState (fs : FileTree Bytes) (r : BackupRecord) : Prop :=
  ∃ data, fs.lookup [r.name, "data.json"] = some (.file data) ∧ enc.sha256 data = r.checksum

/-- The directory of the backup holds the files of the source. -/
def HoldsFiles (fs : FileTree Bytes) (name : String) (source : Source) : Prop :=
  ∃ files, source.files = .ok files ∧ ∀ rel ∈ files, ∃ data, source.read rel = .ok data ∧
    fs.lookup ([name, "data"] ++ rel) = some (.file data)

variable {enc}

/-- Paths outside of the directory of a backup. -/
def Outside (name : String) (path : List String) : Prop := ¬ [name] <+: path

theorem leaves_sha256File {P : List String → Prop} (path : List String) :
    Leaves P (sha256File enc path) :=
  (leaves_readFile path).bind fun _ => leaves_pure _

theorem leaves_orFail {α : Type} {P : List String → Prop} (what : String) (r : Except String α) :
    Leaves P (orFail what r) := by
  cases r with
  | ok a => exact leaves_pure a
  | error e => exact leaves_throw _

theorem leaves_attempt {α : Type} {P : List String → Prop} {op : FileOp Bytes α}
    (h : Leaves P op) (what : String) : Leaves P (attempt what op) :=
  h.adaptExcept _

/-! ### What is left alone -/

theorem leaves_copyFiles (source : Source) (name : String) (files : List (List String)) :
    Leaves (Outside name) (copyFiles source [name, "data"] files) := by
  induction files with
  | nil => exact leaves_pure ()
  | cons rel files ih =>
    refine Leaves.bind ?_ fun _ => ih
    refine (leaves_attempt (leaves_createDirAll name _) _).bind fun _ => ?_
    refine (leaves_orFail _ _).bind fun data => ?_
    exact leaves_attempt (leaves_writeFile (not_not_intro ⟨"data" :: rel, rfl⟩) data) _

/-- A backup changes nothing outside of its own directory. -/
theorem leaves_writeBackup (now : DateTime) (source : Source) :
    Leaves (Outside (backupName now)) (writeBackup enc now source) := by
  have hown (file : String) : ¬ Outside (backupName now) [backupName now, file] :=
    not_not_intro ⟨[file], rfl⟩
  refine (leaves_attempt (leaves_createDirAll (backupName now) []) _).bind fun _ => ?_
  refine (leaves_orFail _ _).bind fun files => ?_
  refine (leaves_attempt (leaves_writeFile (hown _) _) _).bind fun _ => ?_
  refine (leaves_copyFiles source (backupName now) files).bind fun _ => ?_
  refine (leaves_attempt (leaves_writeFile (hown _) _) _).bind fun _ => ?_
  refine (leaves_attempt (leaves_sha256File _) _).bind fun checksum => ?_
  exact Leaves.bind (fun _ _ _ => rfl) fun fs => leaves_pure _

/-! ### What was written -/

/-- The file is copied with what the source has. -/
def Copied (source : Source) (dataDir rel : List String) (fs : FileTree Bytes) : Prop :=
  ∃ data, source.read rel = .ok data ∧ fs.lookup (dataDir ++ rel) = some (.file data)

theorem orFail_eq_ok {α : Type} {what : String} {r : Except String α} {a : α}
    {fs fs' : FileTree Bytes} (h : orFail what r fs = .ok a fs') : r = .ok a ∧ fs' = fs := by
  cases r with
  | ok b =>
    cases h
    exact ⟨rfl, rfl⟩
  | error e => cases h

theorem copyFile_eq_ok {source : Source} {dataDir rel : List String} {fs fs' : FileTree Bytes}
    (h : copyFile source dataDir rel fs = .ok () fs') :
    ∃ data made, source.read rel = .ok data ∧
      createDirAll (dataDir ++ rel).dropLast fs = .ok () made ∧
      fs' = made.set (dataDir ++ rel) (.file data) := by
  obtain ⟨_, made, hmade, hrest⟩ := treeOp_bind_eq_ok.mp h
  obtain ⟨data, _, hread, hwrite⟩ := treeOp_bind_eq_ok.mp hrest
  obtain ⟨hdata, rfl⟩ := orFail_eq_ok hread
  exact ⟨data, _, hdata, adaptExcept_eq_ok.mp hmade,
    eq_set_of_writeFile (adaptExcept_eq_ok.mp hwrite)⟩

theorem copied_of_copyFile {source : Source} {dataDir rel : List String} {fs fs' : FileTree Bytes}
    (h : copyFile source dataDir rel fs = .ok () fs') : Copied source dataDir rel fs' := by
  obtain ⟨data, made, hdata, -, rfl⟩ := copyFile_eq_ok h
  exact ⟨data, hdata, made.lookup_set_self _ _⟩

/-- A copy is overwritten only with the same. -/
theorem Copied.copyFile {source : Source} {dataDir rel other : List String}
    {fs fs' : FileTree Bytes} (hrel : Copied source dataDir rel fs)
    (h : copyFile source dataDir other fs = .ok () fs') : Copied source dataDir rel fs' := by
  by_cases hother : rel = other
  · exact hother ▸ copied_of_copyFile h
  · obtain ⟨data, hdata, hlookup⟩ := hrel
    obtain ⟨data', made, -, hmade, rfl⟩ := copyFile_eq_ok h
    have hne : dataDir ++ rel ≠ dataDir ++ other := fun heq => hother (List.append_cancel_left heq)
    refine ⟨data, hdata, ?_⟩
    rw [made.lookup_set_of_ne hne]
    exact lookup_of_createDirs hmade hlookup

theorem Copied.copyFiles {source : Source} {dataDir rel : List String} {files : List (List String)}
    {fs fs' : FileTree Bytes} (hrel : Copied source dataDir rel fs)
    (h : copyFiles source dataDir files fs = .ok () fs') : Copied source dataDir rel fs' := by
  induction files generalizing fs with
  | nil =>
    cases h
    exact hrel
  | cons other files ih =>
    obtain ⟨_, s, hfirst, hrest⟩ := treeOp_bind_eq_ok.mp h
    exact ih (hrel.copyFile hfirst) hrest

theorem copied_of_copyFiles {source : Source} {dataDir : List String} {files : List (List String)}
    {fs fs' : FileTree Bytes} (h : copyFiles source dataDir files fs = .ok () fs') :
    ∀ rel ∈ files, Copied source dataDir rel fs' := by
  induction files generalizing fs with
  | nil => exact fun rel hrel => absurd hrel List.not_mem_nil
  | cons first files ih =>
    obtain ⟨_, s, hfirst, hrest⟩ := treeOp_bind_eq_ok.mp h
    intro rel hrel
    rcases List.mem_cons.mp hrel with rfl | hrel
    · exact (copied_of_copyFile hfirst).copyFiles hrest
    · exact ih hrest rel hrel

/-- What a successful backup is: a record for its time, and a directory that holds the files and a
state with the digest of the record. -/
theorem writeBackup_eq_ok {now : DateTime} {source : Source} {record : BackupRecord}
    {fs fs' : FileTree Bytes} (h : writeBackup enc now source fs = .ok record fs') :
    record.name = backupName now ∧ record.timestamp = now.toRfc3339 ∧ HasState enc fs' record ∧
      HoldsFiles fs' record.name source := by
  obtain ⟨_, s₁, -, h₁⟩ := treeOp_bind_eq_ok.mp h
  obtain ⟨files, s₂, hread, h₂⟩ := treeOp_bind_eq_ok.mp h₁
  obtain ⟨hfiles, -⟩ := orFail_eq_ok hread
  obtain ⟨_, s₃, -, h₃⟩ := treeOp_bind_eq_ok.mp h₂
  obtain ⟨_, s₄, hcopy, h₄⟩ := treeOp_bind_eq_ok.mp h₃
  obtain ⟨_, s₅, hstate, h₅⟩ := treeOp_bind_eq_ok.mp h₄
  obtain ⟨checksum, s₆, hchecksum, h₆⟩ := treeOp_bind_eq_ok.mp h₅
  obtain ⟨s₇, _, hget, h₇⟩ := treeOp_bind_eq_ok.mp h₆
  obtain ⟨data, s₈, hdata, hsum⟩ := treeOp_bind_eq_ok.mp (adaptExcept_eq_ok.mp hchecksum)
  obtain ⟨rfl, hlookup⟩ := lookup_of_readFile hdata
  cases hsum
  cases hget
  cases h₇
  refine ⟨rfl, rfl, ⟨data, hlookup, rfl⟩, files, hfiles, fun rel hrel => ?_⟩
  obtain ⟨data', hdata', hrelLookup⟩ := copied_of_copyFiles hcopy rel hrel
  refine ⟨data', hdata', ?_⟩
  -- the state is written to another path than every copy
  have hne : [backupName now, "data"] ++ rel ≠ [backupName now, "data.json"] := by simp
  rw [eq_set_of_writeFile (adaptExcept_eq_ok.mp hstate), s₄.lookup_set_of_ne hne]
  exact hrelLookup

end Wardex.Backup
