import Wardex.Lib.Decimal
import Wardex.Lib.Padded
import Wardex.Lib.Text
import Mathlib.Algebra.Order.Field.Rat

/-! The scan of an inventory of packages for those that an advisory affects.  Versions are cut at
dots and dashes; the comparison drops the pieces that are not numbers, which moves the pieces behind
them.  Scores are exact rationals. -/

namespace Wardex.Vulnerability

open Wardex.Lib

inductive AdvisorySeverity where
  | none
  | low
  | medium
  | high
  | critical
deriving DecidableEq

structure Advisory where
  id : String
  title : String
  package : String
  affectedBelow : String
  fixedVersion : String
  cvss : ℚ
  severity : AdvisorySeverity
  exploitKnown : Bool
  mitreTechniques : List String
  published : String
deriving DecidableEq

structure InstalledPackage where
  name : String
  version : String
  source : String

/-- The part of an inventory that is scanned. -/
structure SystemInventory where
  software : List InstalledPackage

structure VulnerabilityMatch where
  advisory : Advisory
  installedVersion : String
  packageSource : String
  riskScore : ℚ
  remediation : String
deriving DecidableEq

structure VulnerabilityReport where
  hostId : String
  scanTimestamp : String
  totalPackages : ℕ
  vulnerablePackages : ℕ
  totalCves : ℕ
  criticalCount : ℕ
  highCount : ℕ
  mediumCount : ℕ
  lowCount : ℕ
  exploitAvailableCount : ℕ
  riskScore : ℚ
  matched : List VulnerabilityMatch
  topActions : List String

structure VulnerabilityScanner where
  advisories : List Advisory

def VulnerabilityScanner.addAdvisories (scanner : VulnerabilityScanner)
    (advisories : List Advisory) : VulnerabilityScanner :=
  ⟨scanner.advisories ++ advisories⟩

/-! ### Versions -/

/-- The pieces of a version between dots and dashes. -/
def pieces (version : String) : List (List Char) :=
  version.toList.splitOnP fun c => c = '.' || c = '-'

/-- The pieces that are read as numbers, one behind the other. -/
def kept (ps : List (List Char)) : List ℕ := ps.filterMap (parseUnsigned 64)

def versionLt (installed threshold : String) : Bool :=
  let a := kept (pieces installed)
  let b := kept (pieces threshold)
  ((List.range (max a.length b.length)).findSome? fun i =>
    if a.getD i 0 < b.getD i 0 then some true
    else if a.getD i 0 > b.getD i 0 then some false
    else none).getD false

def computeRisk (adv : Advisory) : ℚ :=
  let base := adv.cvss / 10
  let exploitBoost := if adv.exploitKnown then 3 / 10 else 0
  let noFixBoost := if adv.fixedVersion = "" then 15 / 100 else 0
  min ((base + exploitBoost + noFixBoost) * 10) 10

/-- What is reported of an advisory that affects a package. -/
def vulnerabilityMatch (pkg : InstalledPackage) (adv : Advisory) : VulnerabilityMatch where
  advisory := adv
  installedVersion := pkg.version
  packageSource := pkg.source
  riskScore := computeRisk adv
  remediation :=
    if adv.fixedVersion = "" then
      "No fix available for " ++ adv.id ++ " — apply compensating controls"
    else "Upgrade " ++ pkg.name ++ " to version " ++ adv.fixedVersion

section

variable (toLowercase : String → String) (scanner : VulnerabilityScanner)

def scanMatches (inventory : SystemInventory) : List VulnerabilityMatch :=
  inventory.software.flatMap fun pkg =>
    scanner.advisories.filterMap fun adv =>
      if adv.package = toLowercase pkg.name ∧ versionLt pkg.version adv.affectedBelow then
        some (vulnerabilityMatch pkg adv)
      else none

def scan (hostId : String) (inventory : SystemInventory) (now : String) : VulnerabilityReport :=
  let found := scanMatches toLowercase scanner inventory
  let counted (severity : AdvisorySeverity) := found.countP fun m => m.advisory.severity = severity
  let sorted := found.mergeSort fun a b => b.riskScore ≤ a.riskScore
  { hostId := hostId
    scanTimestamp := now
    totalPackages := inventory.software.length
    vulnerablePackages := found.length
    totalCves := (found.map fun m => m.advisory.id).dedup.length
    criticalCount := counted .critical
    highCount := counted .high
    mediumCount := counted .medium
    lowCount := counted .low
    exploitAvailableCount := found.countP fun m => m.advisory.exploitKnown
    riskScore := min (found.map VulnerabilityMatch.riskScore).sum 10
    matched := found
    topActions := (sorted.map VulnerabilityMatch.remediation).take 10 }

end

theorem versionLt_iff {installed threshold : String} :
    versionLt installed threshold ↔
      padded (kept (pieces installed)) < padded (kept (pieces threshold)) := by
  generalize ha : kept (pieces installed) = a
  generalize hb : kept (pieces threshold) = b
  have hloop : versionLt installed threshold ↔
      (List.range (max a.length b.length)).findSome? (fun i =>
        if a.getD i 0 < b.getD i 0 then some true
        else if a.getD i 0 > b.getD i 0 then some false
        else none) = some true := by
    rw [versionLt, ha, hb]
    cases List.findSome? _ _ with
    | none => simp
    | some r => simp
  rw [hloop, findSome?_range_eq_some_iff]
  constructor
  · rintro ⟨i, -, hnone, hfound⟩
    refine padded_lt_iff.mpr ⟨i, fun j hj => ?_, ?_⟩
    · have hj := hnone j hj
      split_ifs at hj with hlt hgt
      exact le_antisymm (not_lt.mp hgt) (not_lt.mp hlt)
    · split_ifs at hfound with hlt hgt
      · exact hlt
      · cases hfound
  · rw [padded_lt_iff_exists_lt]
    rintro ⟨i, hi, heq, hlt⟩
    refine ⟨i, lt_max_of_lt_right hi, fun j hj => ?_, if_pos hlt⟩
    rw [if_neg (heq j hj).not_lt, if_neg (heq j hj).not_gt]

/-! ### The order of versions -/

/-- The digits that a piece begins with, if they fit. -/
def value (piece : List Char) : ℕ :=
  ((parseDigits (piece.takeWhile Char.isDigit)).filter fun n => n < 2 ^ 64).getD 0

def values (ps : List (List Char)) : List ℕ := ps.map value

/-- The installed version is smaller, piece by piece. -/
def Older (installed threshold : String) : Prop :=
  padded (values (pieces installed)) < padded (values (pieces threshold))

instance (installed threshold : String) : Decidable (Older installed threshold) :=
  inferInstanceAs (Decidable (padded _ < padded _))

/-- The piece is read as its value. -/
def Plain (piece : List Char) : Prop := parseUnsigned 64 piece = some (value piece)

instance (piece : List Char) : Decidable (Plain piece) :=
  inferInstanceAs (Decidable (_ = some _))

/-- Without the pieces that are not numbers, and with a value for each piece, the two are in the
same order. -/
def SameOrder (ps qs : List (List Char)) : Prop :=
  padded (kept ps) < padded (kept qs) ↔ padded (values ps) < padded (values qs)

/-- Either a difference is met among the pieces that are read as their values, or what is left is in
the same order however it is read.  What goes on behind the threshold is not smaller in any case. -/
def DecidedPlainly : List (List Char) → List (List Char) → Prop
  | p :: ps, q :: qs =>
    if Plain p ∧ Plain q then value p = value q → DecidedPlainly ps qs
    else SameOrder (p :: ps) (q :: qs)
  | [], qs => (∃ q ∈ qs, ∃ n ∈ parseUnsigned 64 q, n ≠ 0) ↔ ∃ q ∈ qs, value q ≠ 0
  | _ :: _, [] => True

theorem kept_cons_of_plain {p : List Char} (h : Plain p) (ps : List (List Char)) :
    kept (p :: ps) = value p :: kept ps := List.filterMap_cons_some h

/-- The empty version is smaller than one in which a number is not zero. -/
theorem padded_nil_lt_iff {l : List ℕ} : padded [] < padded l ↔ ∃ n ∈ l, n ≠ 0 := by
  induction l with
  | nil => simp [not_padded_lt_nil]
  | cons n l ih =>
    rw [padded_nil, padded_cons_lt, ih]
    rcases Nat.eq_zero_or_pos n with rfl | hpos
    · simp
    · exact iff_of_true (.inl hpos) ⟨n, List.mem_cons_self, hpos.ne'⟩

theorem decidedPlainly_iff (ps qs : List (List Char)) :
    DecidedPlainly ps qs ↔ SameOrder ps qs := by
  induction ps generalizing qs with
  | nil =>
    have hkept : padded (kept []) < padded (kept qs) ↔
        ∃ q ∈ qs, ∃ n ∈ parseUnsigned 64 q, n ≠ 0 := by
      rw [kept, List.filterMap_nil, padded_nil_lt_iff]
      constructor
      · rintro ⟨n, hn, hne⟩
        obtain ⟨q, hq, hread⟩ := List.mem_filterMap.mp hn
        exact ⟨q, hq, n, hread, hne⟩
      · rintro ⟨q, hq, n, hread, hne⟩
        exact ⟨n, List.mem_filterMap.mpr ⟨q, hq, hread⟩, hne⟩
    have hvalues : padded (values []) < padded (values qs) ↔ ∃ q ∈ qs, value q ≠ 0 := by
      rw [values, List.map_nil, padded_nil_lt_iff, values]
      simp only [List.mem_map, exists_exists_and_eq_and]
    rw [DecidedPlainly, SameOrder, hkept, hvalues]
  | cons p ps ih =>
    cases qs with
    | nil => exact iff_of_true trivial (iff_of_false (not_padded_lt_nil _) (not_padded_lt_nil _))
    | cons q qs =>
      rw [DecidedPlainly]
      split_ifs with hplain
      · rw [SameOrder, kept_cons_of_plain hplain.1, kept_cons_of_plain hplain.2, values, values,
          List.map_cons, List.map_cons, padded_cons_lt, padded_cons_lt, ih qs]
        rcases eq_or_ne (value p) (value q) with heq | hne
        · rw [imp_iff_right heq, heq]
          simp only [lt_irrefl, true_and, false_or]
          exact Iff.rfl
        · refine iff_of_true (fun heq => absurd heq hne) ?_
          simp only [hne, false_and, or_false]
      · exact Iff.rfl

/-- Numbers between dots and dashes are compared as they should be. -/
theorem decidedPlainly_of_plain {ps qs : List (List Char)} (hps : ∀ p ∈ ps, Plain p)
    (hqs : ∀ q ∈ qs, Plain q) : DecidedPlainly ps qs := by
  have hall {l : List (List Char)} (h : ∀ p ∈ l, Plain p) : kept l = values l := by
    induction l with
    | nil => rfl
    | cons p l ih =>
      rw [kept_cons_of_plain (h p List.mem_cons_self),
        ih fun p hp => h p (List.mem_cons_of_mem _ hp)]
      rfl
  rw [decidedPlainly_iff, SameOrder, hall hps, hall hqs]

/-! ### What is reported -/

section

variable {toLowercase : String → String} {scanner : VulnerabilityScanner}
  {inventory : SystemInventory}

/-- What should be reported: the advisories for a package of that name, in whatever case, that is
older than the threshold. -/
def expectedMatches (toLowercase : String → String) (scanner : VulnerabilityScanner)
    (inventory : SystemInventory) : List VulnerabilityMatch :=
  inventory.software.flatMap fun pkg =>
    scanner.advisories.filterMap fun adv =>
      if toLowercase adv.package = toLowercase pkg.name ∧ Older pkg.version adv.affectedBelow then
        some (vulnerabilityMatch pkg adv)
      else none

theorem mem_scanMatches {m : VulnerabilityMatch} :
    m ∈ scanMatches toLowercase scanner inventory ↔
      ∃ pkg ∈ inventory.software, ∃ adv ∈ scanner.advisories,
        (adv.package = toLowercase pkg.name ∧ versionLt pkg.version adv.affectedBelow) ∧
          vulnerabilityMatch pkg adv = m := by
  simp only [scanMatches, List.mem_flatMap, List.mem_filterMap, Option.ite_none_right_eq_some,
    Option.some.injEq]

theorem mem_expectedMatches {m : VulnerabilityMatch} :
    m ∈ expectedMatches toLowercase scanner inventory ↔
      ∃ pkg ∈ inventory.software, ∃ adv ∈ scanner.advisories,
        (toLowercase adv.package = toLowercase pkg.name ∧
          Older pkg.version adv.affectedBelow) ∧
          vulnerabilityMatch pkg adv = m := by
  simp only [expectedMatches, List.mem_flatMap, List.mem_filterMap, Option.ite_none_right_eq_some,
    Option.some.injEq]

end

/-- One of the advisories that a scanner begins with. -/
def openSshRegreSSHion : Advisory where
  id := "CVE-2024-6387"
  title := "OpenSSH regreSSHion RCE"
  package := "openssh-server"
  affectedBelow := "9.8"
  fixedVersion := "9.8p1"
  cvss := 81 / 10
  severity := .high
  exploitKnown := true
  mitreTechniques := ["T1190"]
  published := "2024-07-01T00:00:00Z"

def openSsh (version : String) : InstalledPackage := ⟨"openssh-server", version, "apt"⟩

end Wardex.Vulnerability
