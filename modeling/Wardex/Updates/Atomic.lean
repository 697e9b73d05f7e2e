import Wardex.Lib.KeyMap
import Wardex.Lib.Run
import Wardex.Updates.Trust

/-! The atomic updater: a new binary is staged, checked and renamed into place, and the old one is
kept as a backup.  Files are a map from paths to bytes; each step on them may fail and then changes
nothing.  The paths that undo a swap trust the file at the backup path, which is the right one only
if something was installed before; the rollback takes the first backup of the directory listing and
leaves the version of the updater as it is. -/

namespace Wardex.Updates

open Wardex.Lib Wardex.Audit Wardex.Enrollment

section

abbrev Files := KeyMap String (List UInt8)

inductive UpdateState where
  | idle
  | downloading
  | verifying
  | backingUp
  | swapping
  | validating
  | complete
  | rolledBack
  | failed (reason : String)
deriving DecidableEq

structure UpdateRecord where
  fromVersion : String
  toVersion : String
  state : UpdateState
  startedAt : String
  completedAt : String
  rollback : Bool
  signatureStatus : Option String
  signerPubkey : Option String
  signaturePayloadSha256 : Option String
  updateCounter : Option Nat

structure AtomicUpdater where
  stagingDir : String
  currentVersion : String
  state : UpdateState
  history : List UpdateRecord

/-- The errors of the file operations that fail. -/
structure Faults where
  write : Option String
  copy : Option String
  rename : Option String
  metadata : Option String

/-- What `apply_update` is given: the update, the path of the installed binary, and the clock at
its start and its end. -/
structure UpdateRequest where
  newVersion : String
  binary : List UInt8
  expectedSha : String
  currentBinaryPath : String
  started : Int
  completed : Int

namespace AtomicUpdater

def new (stagingDir currentVersion : String) : AtomicUpdater :=
  ⟨stagingDir, currentVersion, .idle, []⟩

def stagedPath (u : AtomicUpdater) (newVersion : String) : String :=
  u.stagingDir ++ "/staged-" ++ newVersion

def backupPath (u : AtomicUpdater) : String := u.stagingDir ++ "/backup-" ++ u.currentVersion

variable {Key : Type} (crypto : Crypto Key) (chrono : Chrono)

def record (u : AtomicUpdater) (r : UpdateRequest) (state : UpdateState) (rollback : Bool) :
    UpdateRecord where
  fromVersion := u.currentVersion
  toVersion := r.newVersion
  state := state
  startedAt := chrono.format r.started
  completedAt := chrono.format r.completed
  rollback := rollback
  signatureStatus := none
  signerPubkey := none
  signaturePayloadSha256 := none
  updateCounter := none

def fail (u : AtomicUpdater) (r : UpdateRequest) (reason : String) (rolledBack : Bool) :
    AtomicUpdater × Except String Unit :=
  ({ u with
    state := .failed reason
    history := u.history ++ [u.record chrono r (.failed reason) rolledBack] }, .error reason)

/-- The backup, if there is one, becomes the installed binary. -/
def rollback (files : Files) (currentPath backupPath : String) : Files :=
  files.rename backupPath currentPath

/-- The size of the file at the path. -/
def metadata (files : Files) (path : String) (fault : Option String) : Except String Nat :=
  match fault with
  | some e => .error e
  | none => (files path).elim (.error "No such file or directory (os error 2)") fun bytes =>
    .ok bytes.length

/-- What is wrong with the binary in its place. -/
def validate (files : Files) (r : UpdateRequest) (fault : Option String) : Except String Unit :=
  match metadata files r.currentBinaryPath fault with
  | .error e => .error ("validation: " ++ e)
  | .ok size =>
    if size = r.binary.length then .ok ()
    else .error ("validation: size mismatch (" ++ toString size ++ " vs " ++
      toString r.binary.length ++ ")")

/-- The states between `downloading` and `validating` last only while the call runs. -/
def applyUpdate (u : AtomicUpdater) (files : Files) (faults : Faults) (r : UpdateRequest) :
    (AtomicUpdater × Except String Unit) × Files :=
  if traverses r.newVersion then ((u, .error "invalid version name"), files)
  else
    let staged := u.stagedPath r.newVersion
    match faults.write with
    | some e => (u.fail chrono r ("staging write: " ++ e) false, files)
    | none =>
      let files := files.insert staged r.binary
      let actual := sha256Hex crypto.sha256 r.binary
      if actual ≠ r.expectedSha then
        (u.fail chrono r ("SHA mismatch: expected " ++ r.expectedSha ++ ", got " ++ actual) false,
          files.erase staged)
      else
        -- the backup is skipped when nothing is installed
        match if (files r.currentBinaryPath).isSome then faults.copy else none with
        | some e => (u.fail chrono r ("backup: " ++ e) false, files)
        | none =>
          let files := files.copy r.currentBinaryPath u.backupPath
          match faults.rename with
          | some e =>
            (u.fail chrono r ("swap: " ++ e) true, rollback files r.currentBinaryPath u.backupPath)
          | none =>
            let files := files.rename staged r.currentBinaryPath
            match validate files r faults.metadata with
            | .error e =>
              (u.fail chrono r e true, rollback files r.currentBinaryPath u.backupPath)
            | .ok _ =>
              (({ u with
                state := .complete
                history := u.history ++ [u.record chrono r .complete false]
                currentVersion := r.newVersion }, .ok ()), files)

/-- The trust of the release is checked first and noted in the record of the update. -/
def applyTrustedUpdate (u : AtomicUpdater) (files : Files) (faults : Faults) (release : Release)
    (binary : List UInt8) (policy : UpdateTrustPolicy) (lastAccepted : Option Nat)
    (allowDowngrade : Bool) (currentBinaryPath : String) (now started completed : Int) :
    (AtomicUpdater × Except String Unit) × Files :=
  match verifyReleaseArtifact crypto chrono release binary policy u.currentVersion lastAccepted
    allowDowngrade now with
  | .error e => ((u, .error e), files)
  | .ok v =>
    match u.applyUpdate crypto chrono files faults
      ⟨release.version, binary, release.sha256, currentBinaryPath, started, completed⟩ with
    | ((u, .error e), files) => ((u, .error e), files)
    | ((u, .ok _), files) =>
      (({ u with history := u.history.modifyLast fun record => { record with
        signatureStatus := some v.signatureStatus
        signerPubkey := v.signerPubkey
        signaturePayloadSha256 := v.signaturePayloadSha256
        updateCounter := v.updateCounter } }, .ok ()), files)

def isBackup (name : String) : Bool := "backup-".toList <+: name.toList

/-- `entries` is the listing of the staging directory, in whatever order it comes. -/
def rollbackToPrevious (u : AtomicUpdater) (files : Files) (fault : Option String)
    (entries : List String) (currentBinaryPath : String) :
    (AtomicUpdater × Except String Unit) × Files :=
  match entries.find? isBackup with
  | none => ((u, .error ("no backup found in " ++ u.stagingDir)), files)
  | some name =>
    let path := u.stagingDir ++ "/" ++ name
    match if (files path).isSome then fault else some "No such file or directory (os error 2)" with
    | some e => ((u, .error ("rollback: " ++ e)), files)
    | none => (({ u with state := .rolledBack }, .ok ()), files.rename path currentBinaryPath)

end AtomicUpdater

end

/-! ## What a failed update leaves behind -/

section

/-- The path is not one of a file in the directory. -/
def Outside (dir path : String) : Prop := ∀ name, path ≠ dir ++ "/" ++ name

namespace AtomicUpdater

variable {Key : Type} {crypto : Crypto Key} {chrono : Chrono} {u : AtomicUpdater} {files : Files}
  {faults : Faults} {r : UpdateRequest}

/-! ## The files of an update -/

theorem ne_stagedPath {path : String} (h : Outside u.stagingDir path) (version : String) :
    path ≠ u.stagedPath version := by
  have hpath : u.stagedPath version = u.stagingDir ++ "/" ++ ("staged-" ++ version) := by
    simp [stagedPath, ← String.toList_inj]
  rw [hpath]
  exact h _

theorem ne_backupPath {path : String} (h : Outside u.stagingDir path) : path ≠ u.backupPath := by
  have hpath : u.backupPath = u.stagingDir ++ "/" ++ ("backup-" ++ u.currentVersion) := by
    simp [backupPath, ← String.toList_inj]
  rw [hpath]
  exact h _

theorem backupPath_ne_stagedPath (u : AtomicUpdater) (version : String) :
    u.backupPath ≠ u.stagedPath version := by
  intro h
  have hlist := congrArg String.toList h
  simp [backupPath, stagedPath] at hlist

/-- The files once the update is staged and the installed binary, if any, is backed up. -/
def backedUp (u : AtomicUpdater) (files : Files) (r : UpdateRequest) : Files :=
  (files.insert (u.stagedPath r.newVersion) r.binary).copy r.currentBinaryPath u.backupPath

def swapped (u : AtomicUpdater) (files : Files) (r : UpdateRequest) : Files :=
  (u.backedUp files r).rename (u.stagedPath r.newVersion) r.currentBinaryPath

theorem backedUp_staged (u : AtomicUpdater) (files : Files) (r : UpdateRequest) :
    u.backedUp files r (u.stagedPath r.newVersion) = some r.binary := by
  rw [backedUp, KeyMap.copy_of_ne (backupPath_ne_stagedPath u _).symm, KeyMap.insert_self]

theorem swapped_current (u : AtomicUpdater) (files : Files) (r : UpdateRequest) :
    u.swapped files r r.currentBinaryPath = some r.binary :=
  KeyMap.rename_dst (backedUp_staged u files r)

theorem validate_swapped (u : AtomicUpdater) (files : Files) (r : UpdateRequest) :
    validate (u.swapped files r) r none = .ok () := by
  simp [validate, metadata, swapped_current]

/-- Everything `apply_update` can do: it is refused, fails at one of its steps, or succeeds. -/
inductive Outcome (crypto : Crypto Key) (chrono : Chrono) (u : AtomicUpdater) (files : Files)
    (faults : Faults) (r : UpdateRequest) :
      (AtomicUpdater × Except String Unit) × Files → Prop where
  | refused (hname : traverses r.newVersion) :
      Outcome crypto chrono u files faults r ((u, .error "invalid version name"), files)
  | unwritten (reason : String) (hname : traverses r.newVersion = false)
      (hwrite : faults.write ≠ none) :
      Outcome crypto chrono u files faults r (u.fail chrono r reason false, files)
  | mismatched (reason : String) (hname : traverses r.newVersion = false)
      (hsha : sha256Hex crypto.sha256 r.binary ≠ r.expectedSha) :
      Outcome crypto chrono u files faults r (u.fail chrono r reason false,
        (files.insert (u.stagedPath r.newVersion) r.binary).erase (u.stagedPath r.newVersion))
  | uncopied (reason : String) (hname : traverses r.newVersion = false)
      (hinstalled :
        (files.insert (u.stagedPath r.newVersion) r.binary) r.currentBinaryPath ≠ none) :
      Outcome crypto chrono u files faults r (u.fail chrono r reason false,
        files.insert (u.stagedPath r.newVersion) r.binary)
  | unswapped (reason : String) (hname : traverses r.newVersion = false)
      (hwrite : faults.write = none) (hsha : sha256Hex crypto.sha256 r.binary = r.expectedSha)
      (hrename : faults.rename ≠ none) :
      Outcome crypto chrono u files faults r (u.fail chrono r reason true,
        rollback (u.backedUp files r) r.currentBinaryPath u.backupPath)
  | unvalidated (reason : String) (hname : traverses r.newVersion = false)
      (hwrite : faults.write = none) (hsha : sha256Hex crypto.sha256 r.binary = r.expectedSha)
      (hrename : faults.rename = none) (hmetadata : faults.metadata ≠ none) :
      Outcome crypto chrono u files faults r (u.fail chrono r reason true,
        rollback (u.swapped files r) r.currentBinaryPath u.backupPath)
  | updated (hname : traverses r.newVersion = false) (hrename : faults.rename = none)
      (hmetadata : faults.metadata = none) :
      Outcome crypto chrono u files faults r (({ u with
        state := .complete
        history := u.history ++ [u.record chrono r .complete false]
        currentVersion := r.newVersion }, .ok ()), u.swapped files r)

theorem applyUpdate_outcome (crypto : Crypto Key) (chrono : Chrono) (u : AtomicUpdater)
    (files : Files) (faults : Faults) (r : UpdateRequest) :
    Outcome crypto chrono u files faults r (u.applyUpdate crypto chrono files faults r) := by
  unfold applyUpdate
  cases hname : traverses r.newVersion with
  | true => exact .refused hname
  | false =>
    cases hwrite : faults.write with
    | some e => exact .unwritten _ hname (by simp [hwrite])
    | none =>
      rw [if_neg Bool.false_ne_true]
      dsimp only
      by_cases hsha : sha256Hex crypto.sha256 r.binary = r.expectedSha
      · rw [if_neg (not_not.mpr hsha)]
        cases hcopy : (if ((files.insert (u.stagedPath r.newVersion) r.binary)
            r.currentBinaryPath).isSome then faults.copy else none) with
        | some e =>
          refine .uncopied _ hname fun hnone => ?_
          rw [hnone] at hcopy
          exact nomatch hcopy
        | none =>
          cases hrename : faults.rename with
          | some e => exact .unswapped _ hname hwrite hsha (by simp [hrename])
          | none =>
            cases hmetadata : faults.metadata with
            | some e => exact .unvalidated _ hname hwrite hsha hrename (by simp [hmetadata])
            | none =>
              have hvalid := validate_swapped u files r
              unfold swapped backedUp at hvalid
              dsimp only
              rw [hvalid]
              exact .updated hname hrename hmetadata
      · rw [if_pos hsha]
        exact .mismatched _ hname hsha

/-! ## Atomicity -/

/-- A call that fails leaves the installed binary and the version; one that succeeds installs the
update. -/
structure Atomic (crypto : Crypto Key) (chrono : Chrono) (u : AtomicUpdater) (files : Files)
    (faults : Faults) (r : UpdateRequest) : Prop where
  failed : ∀ e, (u.applyUpdate crypto chrono files faults r).1.2 = .error e →
    (u.applyUpdate crypto chrono files faults r).2 r.currentBinaryPath = files r.currentBinaryPath ∧
      (u.applyUpdate crypto chrono files faults r).1.1.currentVersion = u.currentVersion
  installed : (u.applyUpdate crypto chrono files faults r).1.2 = .ok () →
    (u.applyUpdate crypto chrono files faults r).2 r.currentBinaryPath = some r.binary ∧
      (u.applyUpdate crypto chrono files faults r).1.1.currentVersion = r.newVersion

/-- With nothing installed yet, a swap that fails finds no backup and a swap that works is
validated. -/
def UndoesFirst (crypto : Crypto Key) (u : AtomicUpdater) (files : Files) (faults : Faults)
    (r : UpdateRequest) : Prop :=
  traverses r.newVersion = false → faults.write = none →
    sha256Hex crypto.sha256 r.binary = r.expectedSha → files r.currentBinaryPath = none →
      (faults.rename ≠ none → files u.backupPath = none) ∧
        (faults.rename = none → faults.metadata = none)

theorem backedUp_backup (hout : Outside u.stagingDir r.currentBinaryPath) :
    u.backedUp files r u.backupPath = (files r.currentBinaryPath).or (files u.backupPath) := by
  have hpath := ne_stagedPath hout r.newVersion
  unfold backedUp KeyMap.copy
  rw [KeyMap.insert_of_ne _ hpath]
  cases files r.currentBinaryPath with
  | none =>
    rw [Option.elim_none, KeyMap.insert_of_ne _ (backupPath_ne_stagedPath u _), Option.none_or]
  | some b => rw [Option.elim_some, KeyMap.insert_self, Option.some_or]

theorem backedUp_current (hout : Outside u.stagingDir r.currentBinaryPath) :
    u.backedUp files r r.currentBinaryPath = files r.currentBinaryPath := by
  rw [backedUp, KeyMap.copy_of_ne (ne_backupPath hout),
    KeyMap.insert_of_ne _ (ne_stagedPath hout _)]

theorem swapped_backup (hout : Outside u.stagingDir r.currentBinaryPath) :
    u.swapped files r u.backupPath = (files r.currentBinaryPath).or (files u.backupPath) := by
  rw [swapped, KeyMap.rename_of_ne (backupPath_ne_stagedPath u _) (ne_backupPath hout).symm,
    backedUp_backup hout]

theorem rollback_backedUp (hout : Outside u.stagingDir r.currentBinaryPath) :
    rollback (u.backedUp files r) r.currentBinaryPath u.backupPath r.currentBinaryPath =
      (files r.currentBinaryPath).or (files u.backupPath) := by
  rw [rollback, KeyMap.rename_dst_eq, backedUp_backup hout, backedUp_current hout]
  cases files r.currentBinaryPath with
  | none => rw [Option.none_or, Option.or_none]
  | some b => rw [Option.some_or, Option.some_or]

theorem rollback_swapped (hout : Outside u.stagingDir r.currentBinaryPath) :
    rollback (u.swapped files r) r.currentBinaryPath u.backupPath r.currentBinaryPath =
      ((files r.currentBinaryPath).or (files u.backupPath)).or (some r.binary) := by
  rw [rollback, KeyMap.rename_dst_eq, swapped_backup hout, swapped_current]

theorem atomic_of_undoesFirst (hout : Outside u.stagingDir r.currentBinaryPath)
    (h : u.UndoesFirst crypto files faults r) : u.Atomic crypto chrono files faults r := by
  have hcurrent := ne_stagedPath hout r.newVersion
  have ho := applyUpdate_outcome crypto chrono u files faults r
  constructor
  case failed =>
    intro e he
    generalize u.applyUpdate crypto chrono files faults r = out at ho he
    cases ho with
    | refused => exact ⟨rfl, rfl⟩
    | unwritten => exact ⟨rfl, rfl⟩
    | mismatched =>
      exact ⟨(KeyMap.erase_of_ne _ hcurrent).trans (KeyMap.insert_of_ne _ hcurrent _), rfl⟩
    | uncopied => exact ⟨KeyMap.insert_of_ne _ hcurrent _, rfl⟩
    | unswapped _ hname hwrite hsha hrename =>
      refine ⟨(rollback_backedUp hout).trans ?_, rfl⟩
      cases hinstalled : files r.currentBinaryPath with
      | none => rw [Option.none_or, (h hname hwrite hsha hinstalled).1 hrename]
      | some b => rw [Option.some_or]
    | unvalidated _ hname hwrite hsha hrename hmetadata =>
      refine ⟨(rollback_swapped hout).trans ?_, rfl⟩
      cases hinstalled : files r.currentBinaryPath with
      | none => exact absurd ((h hname hwrite hsha hinstalled).2 hrename) hmetadata
      | some b => rw [Option.some_or, Option.some_or]
    | updated => exact nomatch he
  case installed =>
    intro he
    generalize u.applyUpdate crypto chrono files faults r = out at ho he
    cases ho with
    | updated => exact ⟨swapped_current u files r, rfl⟩
    | _ => exact nomatch he

theorem undoesFirst_of_atomic (hout : Outside u.stagingDir r.currentBinaryPath)
    (h : u.Atomic crypto chrono files faults r) : u.UndoesFirst crypto files faults r := by
  intro hname hwrite hsha hinstalled
  have ho := applyUpdate_outcome crypto chrono u files faults r
  have hfailed := h.failed
  generalize u.applyUpdate crypto chrono files faults r = out at ho hfailed
  cases ho with
  | refused hname' => exact absurd (hname'.symm.trans hname) (by decide)
  | unwritten _ _ hwrite' => exact absurd hwrite hwrite'
  | mismatched _ _ hsha' => exact absurd hsha hsha'
  | uncopied _ _ hinstalled' =>
    rw [KeyMap.insert_of_ne _ (ne_stagedPath hout _)] at hinstalled'
    exact absurd hinstalled hinstalled'
  | unswapped _ _ _ _ hrename =>
    -- the swap failed, so what is at the backup path has been put in place
    have hleft := (rollback_backedUp hout).symm.trans (hfailed _ rfl).1
    rw [hinstalled, Option.none_or] at hleft
    exact ⟨fun _ => hleft, fun hnone => absurd hnone hrename⟩
  | unvalidated _ _ _ _ _ hmetadata =>
    have hleft := (rollback_swapped hout).symm.trans (hfailed _ rfl).1
    rw [hinstalled, Option.none_or] at hleft
    cases hbackup : files u.backupPath <;> rw [hbackup] at hleft <;> exact nomatch hleft
  | updated _ hrename hmetadata => exact ⟨fun hne => absurd hrename hne, fun _ => hmetadata⟩

/-- An attempt that was not refused is recorded, a failed one under its error. -/
theorem exists_record (hname : traverses r.newVersion = false)
    {out : (AtomicUpdater × Except String Unit) × Files}
    (ho : Outcome crypto chrono u files faults r out) :
    ∃ record : UpdateRecord, out.1.1.history = u.history ++ [record] ∧
      record.toVersion = r.newVersion ∧ ∀ e, out.1.2 = .error e → record.state = .failed e := by
  have hfail : ∀ reason rolledBack, ∃ record : UpdateRecord,
      (u.fail chrono r reason rolledBack).1.history = u.history ++ [record] ∧
        record.toVersion = r.newVersion ∧
          ∀ e, (u.fail chrono r reason rolledBack).2 = .error e → record.state = .failed e := by
    intro reason rolledBack
    exact ⟨_, rfl, rfl, fun e he => congrArg _ (Except.error.inj he)⟩
  cases ho with
  | refused h => exact absurd (h.symm.trans hname) (by decide)
  | updated => exact ⟨_, rfl, rfl, fun e he => nomatch he⟩
  | _ => exact hfail _ _

end AtomicUpdater

/-! ## A sequence of updates -/

structure Attempt where
  request : UpdateRequest
  faults : Faults

/-- The updater and its files, with the attempts made so far and their results. -/
structure UpdaterWorld where
  updater : AtomicUpdater
  files : Files
  attempts : List (String × Except String Unit)

namespace UpdaterWorld

variable {Key : Type} (crypto : Crypto Key) (chrono : Chrono)

def attempt (w : UpdaterWorld) (a : Attempt) : UpdaterWorld :=
  let out := w.updater.applyUpdate crypto chrono w.files a.faults a.request
  ⟨out.1.1, out.2, w.attempts ++ [(a.request.newVersion, out.1.2)]⟩

def RecordOf (attempt : String × Except String Unit) (record : UpdateRecord) : Prop :=
  record.toVersion = attempt.1 ∧ ∀ e, attempt.2 = .error e → record.state = .failed e

/-- After the first `base` records the history has one for each attempt, with the error of those
that failed. -/
def Recorded (base : Nat) (w : UpdaterWorld) : Prop :=
  List.Forall₂ RecordOf w.attempts (w.updater.history.drop base)

def AtomicStep (w : UpdaterWorld) (a : Attempt) : Prop :=
  Outside w.updater.stagingDir a.request.currentBinaryPath →
    w.updater.Atomic crypto chrono w.files a.faults a.request

/-- The version can name a file, and a first installation that fails can be undone. -/
def Undoable (w : UpdaterWorld) (a : Attempt) : Prop :=
  traverses a.request.newVersion = false ∧
    (Outside w.updater.stagingDir a.request.currentBinaryPath →
      w.updater.UndoesFirst crypto w.files a.faults a.request)

variable {crypto chrono} {w : UpdaterWorld} {a : Attempt} {base : Nat}

theorem recorded_attempt (h : w.Recorded base ∧ base ≤ w.updater.history.length)
    (hname : traverses a.request.newVersion = false) :
    (w.attempt crypto chrono a).Recorded base ∧
      base ≤ (w.attempt crypto chrono a).updater.history.length := by
  obtain ⟨record, hhistory, hversion, hstate⟩ := AtomicUpdater.exists_record hname
    (AtomicUpdater.applyUpdate_outcome crypto chrono w.updater w.files a.faults a.request)
  unfold Recorded attempt
  dsimp only
  rw [hhistory, List.drop_append_of_le_length h.2]
  refine ⟨List.rel_append h.1 (.cons ⟨hversion, hstate⟩ .nil), ?_⟩
  rw [List.length_append]
  exact Nat.le_add_right_of_le h.2

/-- A refused attempt leaves no record. -/
theorem not_refused_of_recorded (h : w.Recorded base)
    (hnext : (w.attempt crypto chrono a).Recorded base) :
    traverses a.request.newVersion = false := by
  by_contra hname
  have hrefused : w.updater.applyUpdate crypto chrono w.files a.faults a.request =
      ((w.updater, .error "invalid version name"), w.files) := by
    rw [AtomicUpdater.applyUpdate, if_pos (Bool.not_eq_false _ ▸ hname)]
  have hlength := hnext.length_eq
  rw [attempt, hrefused, List.length_append, h.length_eq] at hlength
  exact absurd hlength (Nat.succ_ne_self _)

/-- Over every sequence of updates, from every updater, all files and all choices of failing
steps: each attempt is recorded and each call is atomic if and only if each has a version that can
name a file and finds, when nothing is installed, no way to fail that it cannot undo. -/
theorem updates_atomic_iff (crypto : Crypto Key) (chrono : Chrono) (u : AtomicUpdater)
    (files : Files) (as : List Attempt) :
    Throughout (attempt crypto chrono) (Recorded u.history.length) ⟨u, files, []⟩ as ∧
        Along (attempt crypto chrono) (AtomicStep crypto chrono) ⟨u, files, []⟩ as ↔
      Along (attempt crypto chrono) (Undoable crypto) ⟨u, files, []⟩ as := by
  refine throughout_and_along_iff
    (I := fun w : UpdaterWorld =>
      w.Recorded u.history.length ∧ u.history.length ≤ w.updater.history.length)
    (fun w a h hp => recorded_attempt h hp.1) (fun w h => h.1) ?atomic ?forced ⟨?start, le_rfl⟩
  case atomic => exact fun w a _ hp hout => AtomicUpdater.atomic_of_undoesFirst hout (hp.2 hout)
  case forced =>
    intro w a h hnext he
    exact ⟨not_refused_of_recorded h.1 hnext,
      fun hout => AtomicUpdater.undoesFirst_of_atomic hout (he hout)⟩
  case start =>
    show List.Forall₂ RecordOf [] (u.history.drop u.history.length)
    rw [List.drop_length]
    exact .nil

/-- An update to 1.0.1 where nothing is installed, with a rename that fails. -/
def firstInstall : Attempt where
  request := ⟨"1.0.1", [1], "01", "/usr/bin/wardex", 0, 0⟩
  faults := ⟨none, none, some "Permission denied (os error 13)", none⟩

/-- A backup that an earlier update left in the staging directory. -/
def leftover : Files := KeyMap.insert KeyMap.empty "/var/lib/wardex/backup-1.0.0" [7]

/-- The failed first installation puts the leftover backup in place. -/
theorem leftover_installed :
    ¬ (Throughout (attempt identityHash firstHour) (Recorded 0)
          ⟨.new "/var/lib/wardex" "1.0.0", leftover, []⟩ [firstInstall] ∧
        Along (attempt identityHash firstHour) (AtomicStep identityHash firstHour)
          ⟨.new "/var/lib/wardex" "1.0.0", leftover, []⟩ [firstInstall]) := by
  rintro ⟨-, hatomic, -⟩
  have hout : Outside "/var/lib/wardex" "/usr/bin/wardex" := by
    intro name hname
    have hlist := congrArg String.toList hname
    simp at hlist
  have hundone := AtomicUpdater.undoesFirst_of_atomic hout (hatomic hout) (by decide) rfl
    (by decide +kernel) (by decide +kernel)
  have hnone : leftover "/var/lib/wardex/backup-1.0.0" = none := hundone.1 nofun
  exact absurd hnone (by decide +kernel)

end UpdaterWorld

end

/-! ## Rollback -/

inductive UpdaterCall where
  | applyUpdate (r : UpdateRequest)
  | rollbackToPrevious (entries : List String) (currentBinaryPath : String)

/-- The updater and its files, on a file system where nothing fails. -/
structure Machine where
  updater : AtomicUpdater
  files : Files

namespace Machine

variable {Key : Type} (crypto : Crypto Key) (chrono : Chrono)

def noFaults : Faults := ⟨none, none, none, none⟩

def applyUpdate (m : Machine) (r : UpdateRequest) : Machine × Except String Unit :=
  let out := m.updater.applyUpdate crypto chrono m.files noFaults r
  (⟨out.1.1, out.2⟩, out.1.2)

def rollbackToPrevious (m : Machine) (entries : List String) (path : String) :
    Machine × Except String Unit :=
  let out := m.updater.rollbackToPrevious m.files none entries path
  (⟨out.1.1, out.2⟩, out.1.2)

def perform (m : Machine) : UpdaterCall → Machine × Except String Unit
  | .applyUpdate r => m.applyUpdate crypto chrono r
  | .rollbackToPrevious entries path => m.rollbackToPrevious entries path

def after (m : Machine) (c : UpdaterCall) : Machine := (m.perform crypto chrono c).1

def Fails (m : Machine) (c : UpdaterCall) : Prop := ∃ e, (m.perform crypto chrono c).2 = .error e

/-- Rolling back succeeds, with the binary and the version given. -/
def RollsBackTo (m : Machine) (entries : List String) (path : String) (binary : List UInt8)
    (version : String) : Prop :=
  (m.rollbackToPrevious entries path).2 = .ok () ∧
    (m.rollbackToPrevious entries path).1.files path = some binary ∧
      (m.rollbackToPrevious entries path).1.updater.currentVersion = version

/-- The first backup of the listing is the binary. -/
def FirstBackup (m : Machine) (entries : List String) (binary : List UInt8) : Prop :=
  ∃ name, entries.find? AtomicUpdater.isBackup = some name ∧
    m.files (m.updater.stagingDir ++ "/" ++ name) = some binary

variable {crypto chrono} {m : Machine} {entries : List String} {path : String}

theorem version_of_fails {c : UpdaterCall} (h : m.Fails crypto chrono c) :
    (m.after crypto chrono c).updater.currentVersion = m.updater.currentVersion := by
  obtain ⟨e, he⟩ := h
  cases c with
  | applyUpdate r =>
    have ho := AtomicUpdater.applyUpdate_outcome crypto chrono m.updater m.files noFaults r
    change (m.updater.applyUpdate crypto chrono m.files noFaults r).1.2 = .error e at he
    show (m.updater.applyUpdate crypto chrono m.files noFaults r).1.1.currentVersion = _
    generalize m.updater.applyUpdate crypto chrono m.files noFaults r = out at ho he
    cases ho with
    | updated => exact nomatch he
    | _ => rfl
  | rollbackToPrevious entries path =>
    show (m.updater.rollbackToPrevious m.files none entries path).1.1.currentVersion = _
    unfold AtomicUpdater.rollbackToPrevious
    split
    · rfl
    · dsimp only
      split <;> rfl

theorem version_of_allFail {cs : List UpdaterCall}
    (h : Along (after crypto chrono) (Fails crypto chrono) m cs) :
    (run (after crypto chrono) m cs).updater.currentVersion = m.updater.currentVersion :=
  run_invariant (I := fun m' : Machine => m'.updater.currentVersion = m.updater.currentVersion)
    (fun _ _ hm hfails => (version_of_fails hfails).trans hm) rfl h

theorem version_applyUpdate {r : UpdateRequest} (h : (m.applyUpdate crypto chrono r).2 = .ok ()) :
    (m.applyUpdate crypto chrono r).1.updater.currentVersion = r.newVersion := by
  have ho := AtomicUpdater.applyUpdate_outcome crypto chrono m.updater m.files noFaults r
  change (m.updater.applyUpdate crypto chrono m.files noFaults r).1.2 = .ok () at h
  show (m.updater.applyUpdate crypto chrono m.files noFaults r).1.1.currentVersion = _
  generalize m.updater.applyUpdate crypto chrono m.files noFaults r = out at ho h
  cases ho with
  | updated => rfl
  | _ => exact nomatch h

theorem rollsBackTo_iff {binary : List UInt8} {version : String} :
    m.RollsBackTo entries path binary version ↔
      m.updater.currentVersion = version ∧ m.FirstBackup entries binary := by
  unfold RollsBackTo FirstBackup rollbackToPrevious AtomicUpdater.rollbackToPrevious
  cases hfind : entries.find? AtomicUpdater.isBackup with
  | none => exact iff_of_false (fun h => nomatch h.1) fun ⟨_, _, h, _⟩ => nomatch h
  | some name =>
    dsimp only
    cases hfile : m.files (m.updater.stagingDir ++ "/" ++ name) with
    | none =>
      refine iff_of_false (fun h => nomatch h.1) ?_
      rintro ⟨-, _, ⟨⟩, hbackup⟩
      exact nomatch hfile.symm.trans hbackup
    | some bytes =>
      rw [if_pos Option.isSome_some]
      dsimp only
      rw [KeyMap.rename_dst hfile]
      constructor
      · rintro ⟨-, hbytes, hversion⟩
        exact ⟨hversion, name, rfl, hfile.trans hbytes⟩
      · rintro ⟨hversion, _, ⟨⟩, hbackup⟩
        exact ⟨rfl, hfile.symm.trans hbackup, hversion⟩

/-- In every run, when the last call to have succeeded is an update from some version, rolling back
restores that version and whatever binary was installed if and only if the update was one to the
very same version and the listing names a backup with that binary first. -/
theorem rollback_restores_iff (crypto : Crypto Key) (chrono : Chrono) (m : Machine)
    (before later : List UpdaterCall) (r : UpdateRequest) (entries : List String)
    (binary : List UInt8)
    (hupdate : ((run (after crypto chrono) m before).applyUpdate crypto chrono r).2 = .ok ())
    (hlater : Along (after crypto chrono) (Fails crypto chrono)
      (run (after crypto chrono) m (before ++ [.applyUpdate r])) later) :
    (run (after crypto chrono) m (before ++ .applyUpdate r :: later)).RollsBackTo entries
        r.currentBinaryPath binary (run (after crypto chrono) m before).updater.currentVersion ↔
      r.newVersion = (run (after crypto chrono) m before).updater.currentVersion ∧
        (run (after crypto chrono) m (before ++ .applyUpdate r :: later)).FirstBackup entries
          binary := by
  have hversion := version_of_allFail hlater
  rw [← run_append, List.append_assoc, List.singleton_append, run_append _ _ [_]] at hversion
  rw [rollsBackTo_iff, hversion]
  exact iff_of_eq (congrArg (· = _ ∧ _) (version_applyUpdate hupdate))

/-- Version 1.0.0 is installed again over itself. -/
def reinstall : UpdateRequest := ⟨"1.0.0", [2], "02", "/usr/bin/wardex", 0, 0⟩

def installed : Machine :=
  ⟨.new "/var/lib/wardex" "1.0.0", KeyMap.insert KeyMap.empty "/usr/bin/wardex" [1]⟩

theorem rollback_restores_iff_reinstall :
    (run (after identityHash firstHour) installed [.applyUpdate reinstall]).RollsBackTo
      ["staged", "backup-1.0.0"] "/usr/bin/wardex" [1] "1.0.0" :=
  (rollback_restores_iff identityHash firstHour installed [] [] reinstall _ [1] (by decide +kernel)
    trivial).mpr ⟨rfl, "backup-1.0.0", by decide +kernel, by decide +kernel⟩

/-- After an update from 1.0.0 to 1.0.1 and a rollback, the updater is still at 1.0.1. -/
theorem rollback_keeps_version :
    ((installed.applyUpdate identityHash firstHour { reinstall with newVersion := "1.0.1" }).2 =
        .ok ()) ∧
      ¬ (run (after identityHash firstHour) installed
        [.applyUpdate { reinstall with newVersion := "1.0.1" }]).RollsBackTo
          ["backup-1.0.0", "staged"] "/usr/bin/wardex" [1] "1.0.0" := by
  refine ⟨by decide +kernel, fun h => ?_⟩
  exact absurd h.2.2 (by decide +kernel)

end Machine

end Wardex.Updates
