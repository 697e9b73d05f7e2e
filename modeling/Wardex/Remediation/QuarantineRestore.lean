import Wardex.Lib.Stash
import Wardex.Remediation.Commands

/-! Files put into quarantine, and restored from there by the rollback of a review: the commands of
both, run on a map from paths to contents. -/

namespace Wardex.Remediation

open Wardex.Lib Wardex.PlaybookDsl

section

variable {C : Type}

/-! ## Commands on files -/

/-- `mv` and `move` rename a file, `cp` and `copy` copy it; of the others none changes files. -/
def runOnFiles (files : KeyMap String C) (c : RemediationCommand) : KeyMap String C :=
  match c.args with
  | [src, dst] =>
    if c.program ∈ ["mv", "move"] then files.rename src dst
    else if c.program ∈ ["cp", "copy"] then files.copy src dst
    else files
  | _ => files

def quarantineFiles (platform : RemediationPlatform) (paths : List String)
    (files : KeyMap String C) : KeyMap String C :=
  paths.foldl (fun files path =>
    (platformCommands (.quarantineFile path) platform).foldl runOnFiles files) files

/-- The evidence of a review that names a path and nothing else. -/
def pathEvidence (path : String) : Value Unit := .object [("path", .string path)]

def restoreFiles (platform : RemediationPlatform) (paths : List String)
    (files : KeyMap String C) : KeyMap String C :=
  paths.foldl (fun files path =>
    match rollbackActionFromEvidence (pathEvidence path) with
    | .ok action => (platformCommands action platform).foldl runOnFiles files
    | .error _ => files) files

end

/-! ## Paths -/

def isAbsolute : RemediationPlatform → String → Bool
  | .windows, path =>
    match path.toList with
    | '\\' :: '\\' :: _ => true
    | drive :: ':' :: separator :: _ =>
      drive.isAlpha && (separator == '\\' || separator == '/')
    | _ => false
  | _, path => path.toList.head? == some '/'

/-- Distinct absolute paths. -/
structure PathList (platform : RemediationPlatform) where
  paths : List String
  distinct : paths.Nodup
  absolute : ∀ path ∈ paths, isAbsolute platform path = true

def quarantineDir : RemediationPlatform → String
  | .windows => "C:\\Quarantine\\"
  | _ => "/var/quarantine/"

/-- Where the quarantine of a file puts it. -/
def quarantinePath (platform : RemediationPlatform) (path : String) : String :=
  quarantineDir platform ++ sanitizeFilename path

/-- Where the rollback looks for it. -/
def rollbackSource (path : String) : String :=
  "/var/quarantine/" ++ sanitizeFilename (trimText path)

/-- In quarantine no file overwrites another, and the rollback of all of them brings all back. -/
structure Reversible (platform : RemediationPlatform) (paths : List String) : Prop where
  kept : ∀ (C : Type) (files : KeyMap String C), (∀ path ∈ paths, files path ≠ none) →
    ∀ path ∈ paths, quarantineFiles platform paths files (quarantinePath platform path) = files path
  restored : ∀ (C : Type) (files : KeyMap String C), (∀ path ∈ paths, files path ≠ none) →
    ∀ path ∈ paths, restoreFiles platform paths (quarantineFiles platform paths files) path =
      files path

/-- Not on Windows: no path ends in white space, no two have the same place in quarantine, and none
is the place of another. -/
structure Recoverable (platform : RemediationPlatform) (paths : List String) : Prop where
  posix : platform ≠ .windows
  trimmed : ∀ path ∈ paths, trimText path = path
  apart : ∀ p ∈ paths, ∀ q ∈ paths, quarantinePath platform p = quarantinePath platform q → p = q
  outside : ∀ path ∈ paths, quarantinePath platform path ∉ paths

/-! ## Places in quarantine -/

variable {platform : RemediationPlatform} {path : String}

def flattened (c : Char) : Char := if c = '/' ∨ c = '\\' then '_' else c

theorem length_sanitizeFilename (path : String) : (sanitizeFilename path).length =
    ((path.toList.map flattened).dropWhile fun c => c = '_').length := by
  rw [sanitizeFilename, String.length_ofList]
  rfl

/-- A flattened directory keeps a character, so that all of the name behind it is kept. -/
theorem length_sanitizeFilename_append (platform : RemediationPlatform) (name : String) :
    name.length < (sanitizeFilename (quarantineDir platform ++ name)).length := by
  have hdir :
      ((quarantineDir platform).toList.map flattened).dropWhile (fun c => c = '_') ≠ [] := by
    cases platform with
    | linux => exact List.cons_ne_nil 'v' _
    | macOs => exact List.cons_ne_nil 'v' _
    | windows => exact List.cons_ne_nil 'C' _
  rw [length_sanitizeFilename, String.toList_append, List.map_append, List.dropWhile_append,
    if_neg (by rwa [List.isEmpty_iff]), List.length_append, List.length_map, String.length_toList]
  have hpos := List.length_pos_iff.mpr hdir
  omega

theorem acyclic_quarantinePath (platform : RemediationPlatform) :
    Acyclic (quarantinePath platform) := by
  refine acyclic_of_lt String.length fun path => ?_
  have hlength := length_sanitizeFilename_append platform (sanitizeFilename path)
  rw [quarantinePath, quarantinePath, String.length_append, String.length_append]
  exact Nat.add_lt_add_left hlength _

/-! ## What the commands do -/

variable {C : Type} {files : KeyMap String C} {paths : List String}

theorem quarantineFiles_eq : quarantineFiles platform paths files =
    stashAll (quarantinePath platform) paths files := by
  cases platform with
  | linux => rfl
  | macOs => rfl
  | windows => rfl

/-- An absolute path starts with a character that is not blank, on Windows with no slash. -/
theorem head_of_isAbsolute (h : isAbsolute platform path = true) :
    ∃ c rest, path.toList = c :: rest ∧ isWhiteSpace c = false ∧
      (platform = .windows → c ≠ '/') := by
  have hposix (hhead : (path.toList.head? == some '/') = true) :
      ∃ c rest, path.toList = c :: rest ∧ isWhiteSpace c = false := by
    obtain ⟨rest, hrest⟩ := List.head?_eq_some_iff.mp (beq_iff_eq.mp hhead)
    exact ⟨'/', rest, hrest, rfl⟩
  cases platform with
  | linux =>
    obtain ⟨c, rest, hpath, hc⟩ := hposix h
    exact ⟨c, rest, hpath, hc, RemediationPlatform.noConfusion⟩
  | macOs =>
    obtain ⟨c, rest, hpath, hc⟩ := hposix h
    exact ⟨c, rest, hpath, hc, RemediationPlatform.noConfusion⟩
  | windows =>
    rw [isAbsolute] at h
    split at h
    · next rest hpath => exact ⟨'\\', _, hpath, rfl, fun _ => by decide⟩
    · next _ drive separator rest hpath =>
      obtain ⟨halpha, -⟩ := Bool.and_eq_true_iff.mp h
      have hletter : drive.isAlphanum = true := by rw [Char.isAlphanum, halpha, Bool.true_or]
      refine ⟨drive, _, hpath, ?_, fun _ hslash => ?_⟩
      · by_contra hblank
        rw [not_isAlphanum_of_isWhiteSpace (by simpa using hblank)] at hletter
        exact absurd hletter Bool.false_ne_true
      · rw [hslash] at hletter
        exact absurd hletter (by decide)
    · exact absurd h Bool.false_ne_true

theorem trimText_ne_empty (h : isAbsolute platform path = true) : trimText path ≠ "" := by
  obtain ⟨c, rest, hpath, hc, -⟩ := head_of_isAbsolute h
  obtain ⟨rest', htrim⟩ := exists_trimWith_cons hc rest
  intro hempty
  have hnil := congrArg String.toList hempty
  rw [trimText, String.toList_ofList, hpath, trim, htrim] at hnil
  exact absurd hnil (List.cons_ne_nil c rest')

theorem rollbackActionFromEvidence_path (h : trimText path ≠ "") :
    rollbackActionFromEvidence (pathEvidence path) =
      .ok (.restoreFile (trimText path) (rollbackSource path)) := by
  have hpath : evidenceString (pathEvidence path) "path" = some (trimText path) :=
    Option.filter_some_pos (decide_eq_true h)
  have hnone : get (pathEvidence path) "rollback_action" = none := rfl
  unfold rollbackActionFromEvidence
  rw [hnone, hpath]
  rfl

theorem restoreFiles_eq (h : ∀ path ∈ paths, trimText path ≠ "") :
    restoreFiles platform paths files = recoverAll rollbackSource trimText paths files := by
  induction paths generalizing files with
  | nil => rfl
  | cons path paths ih =>
    have hrest := fun p hp => h p (List.mem_cons_of_mem path hp)
    rw [recoverAll_cons, ← ih hrest, restoreFiles, List.foldl_cons,
      rollbackActionFromEvidence_path (h path List.mem_cons_self)]
    cases platform with
    | linux => rfl
    | macOs => rfl
    | windows => rfl

/-! ## When all files come back -/

theorem restored_iff (h : ∀ path ∈ paths, trimText path ≠ "") :
    (∀ (C : Type) (files : KeyMap String C), (∀ path ∈ paths, files path ≠ none) →
      ∀ path ∈ paths, restoreFiles platform paths (quarantineFiles platform paths files) path =
        files path) ↔
      Recovers (quarantinePath platform) rollbackSource trimText paths := by
  refine forall_congr' fun C => forall_congr' fun files => ?_
  rw [quarantineFiles_eq, restoreFiles_eq h]

theorem rollbackSource_of_trimmed (hposix : platform ≠ .windows) (h : trimText path = path) :
    rollbackSource path = quarantinePath platform path := by
  have hsource : rollbackSource path = "/var/quarantine/" ++ sanitizeFilename path :=
    congrArg (fun name => "/var/quarantine/" ++ sanitizeFilename name) h
  rw [hsource]
  cases platform with
  | linux => rfl
  | macOs => rfl
  | windows => exact absurd rfl hposix

/-- On Windows the rollback looks where nothing is put. -/
theorem rollbackSource_windows (habsolute : ∀ path ∈ paths, isAbsolute .windows path = true) :
    rollbackSource path ∉ paths ∧ ∀ p, quarantinePath .windows p ≠ rollbackSource path := by
  have hsource : (rollbackSource path).toList =
      "/var/quarantine/".toList ++ (sanitizeFilename (trimText path)).toList := String.toList_append
  constructor
  · intro hmem
    obtain ⟨c, rest, hpath, -, hslash⟩ := head_of_isAbsolute (habsolute _ hmem)
    exact hslash rfl (List.cons.inj (hsource.symm.trans hpath)).1.symm
  · intro p heq
    have hplace : (quarantinePath .windows p).toList =
        "C:\\Quarantine\\".toList ++ (sanitizeFilename p).toList := String.toList_append
    have hchars := hplace.symm.trans ((congrArg String.toList heq).trans hsource)
    exact absurd (List.cons.inj hchars).1 (by decide)

/-- **Quarantine and restore.**  They are inverse exactly where nothing is to be done, or off
Windows for paths without trailing white space whose places differ from each other and from the
paths. -/
theorem quarantine_restore_iff (platform : RemediationPlatform) (list : PathList platform) :
    Reversible platform list.paths ↔ list.paths = [] ∨ Recoverable platform list.paths := by
  have htext := fun path hpath => trimText_ne_empty (list.absolute path hpath)
  have hacyclic := acyclic_quarantinePath platform
  constructor
  · intro h
    have hback := (restored_iff htext).mp h.restored
    by_cases hposix : platform = .windows
    · subst hposix
      exact .inl (hback.eq_nil hacyclic fun path _ => rollbackSource_windows list.absolute)
    · have htrimmed : ∀ path ∈ list.paths, trimText path = path := by
        intro path hpath
        obtain ⟨q, -, rfl⟩ := List.mem_map.mp (hback.mem_target hacyclic hpath)
        exact trimText_trimText q
      have hself := hback.congr (fun path hpath => rollbackSource_of_trimmed hposix
        (htrimmed path hpath)) htrimmed
      obtain ⟨hapart, houtside⟩ := (recovers_iff hacyclic list.distinct).mp hself
      exact .inr ⟨hposix, htrimmed, hapart, houtside⟩
  · rintro (hnil | ⟨hposix, htrimmed, hapart, houtside⟩)
    · rw [hnil]
      exact ⟨fun C files _ path hpath => absurd hpath List.not_mem_nil,
        fun C files _ path hpath => absurd hpath List.not_mem_nil⟩
    · refine ⟨fun C files hfile path hpath => ?_, (restored_iff htext).mpr ?_⟩
      · rw [quarantineFiles_eq]
        exact stashAll_place list.distinct hapart houtside hfile hpath
      · have hself := (recovers_iff hacyclic list.distinct).mpr ⟨hapart, houtside⟩
        exact hself.congr (fun path hpath => (rollbackSource_of_trimmed hposix
          (htrimmed path hpath)).symm) fun path hpath => (htrimmed path hpath).symm

/-- One file on Windows. -/
def droppedFile : PathList .windows where
  paths := ["C:\\dropper.exe"]
  distinct := by decide
  absolute := by decide

/-- Two files on Linux whose paths are flattened to the same name. -/
def flattenedAlike : PathList .linux where
  paths := ["/a/b", "/a_b"]
  distinct := by decide
  absolute := by decide

/-- The first is looked for where it is not, and the second of the others takes the place of the
first. -/
theorem dropped_and_flattened_not_restored :
    ¬ Reversible .windows droppedFile.paths ∧ ¬ Reversible .linux flattenedAlike.paths := by
  constructor
  · intro h
    have hback := h.restored Nat (fun path => if path = "C:\\dropper.exe" then some 1 else none)
      (by decide) "C:\\dropper.exe" List.mem_cons_self
    exact absurd hback (by decide +kernel)
  · intro h
    have hback := h.restored Nat
      (fun path => if path = "/a/b" then some 1 else if path = "/a_b" then some 2 else none)
      (by decide) "/a/b" List.mem_cons_self
    exact absurd hback (by decide +kernel)

end Wardex.Remediation
