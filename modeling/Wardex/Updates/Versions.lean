import Wardex.Lib.Padded
import Wardex.Updates.Release

/-! The order of versions, as the offers of updates and the refusal of downgrades see it.  Versions
are compared as lists of numbers, so that 1.0.0 comes after 1.0. -/

namespace Wardex.Updates

open Wardex.Lib Wardex.Audit

/-! ## Offers -/

structure UpdateCheckResponse where
  updateAvailable : Bool
  version : Option String
  platform : Option String
  downloadUrl : Option String
  fileName : Option String
  fileSize : Option ℕ
  sha256 : Option String
  releaseNotes : Option String
  mandatory : Option Bool
  allowDowngrade : Option Bool
  signature : Option String
  signerPubkey : Option String
  signedAt : Option String
  signaturePayloadSha256 : Option String
  updateCounter : Option ℕ

namespace UpdateCheckResponse

def offer (r : Release) : UpdateCheckResponse where
  updateAvailable := true
  version := some r.version
  platform := some r.platform
  downloadUrl := some ("/api/updates/download/" ++ r.fileName)
  fileName := some r.fileName
  fileSize := some r.fileSize
  sha256 := some r.sha256
  releaseNotes := some r.releaseNotes
  mandatory := some r.mandatory
  allowDowngrade := some false
  signature := r.signature
  signerPubkey := r.signerPubkey
  signedAt := r.signedAt
  signaturePayloadSha256 := r.signaturePayloadSha256
  updateCounter := r.updateCounter

def upToDate : UpdateCheckResponse where
  updateAvailable := false
  version := none
  platform := none
  downloadUrl := none
  fileName := none
  fileSize := none
  sha256 := none
  releaseNotes := none
  mandatory := none
  allowDowngrade := none
  signature := none
  signerPubkey := none
  signedAt := none
  signaturePayloadSha256 := none
  updateCounter := none

end UpdateCheckResponse

/-- The last of the greatest items. -/
def maxBy {α : Type*} (compare : α → α → Ordering) : List α → Option α
  | [] => none
  | a :: l => some (l.foldl (fun best b => if compare best b = .gt then best else b) a)

def Release.isFor (platform : String) (r : Release) : Bool :=
  r.platform = platform || r.platform = "universal"

def UpdateManager.checkUpdate (m : UpdateManager) (currentVersion platform : String) :
    UpdateCheckResponse :=
  let latest := maxBy (fun a b => versionCmp a.version b.version)
    (m.releases.filter (Release.isFor platform))
  match latest with
  | some release =>
    if versionCmp release.version currentVersion = .gt then .offer release else .upToDate
  | none => .upToDate

/-! ## What a version stands for -/

/-- The version is written as decimal numbers of 32 bits between dots. -/
def IsVersion (v : String) : Prop :=
  ∀ piece ∈ v.toList.splitOn '.', ∃ n ∈ parseDigits piece, n < 2 ^ 32

instance (v : String) : Decidable (IsVersion v) :=
  inferInstanceAs (Decidable (∀ piece ∈ v.toList.splitOn '.', ∃ n ∈ parseDigits piece, n < 2 ^ 32))

def numbers (v : String) : List ℕ :=
  (v.toList.splitOn '.').map fun piece => (parseDigits piece).getD 0

/-- The numbers decide one after the other, and missing ones are zeros. -/
def Newer (v w : String) : Prop := padded (numbers w) < padded (numbers v)

/-- The version is the other one with more numbers, which are all zeros. -/
def Extends (v w : String) : Prop := ∃ k, numbers v = numbers w ++ List.replicate (k + 1) 0

/-- The offers and the refusals follow the order of the versions. -/
structure FollowsVersions (m : UpdateManager) (current platform target : String) : Prop where
  available : (m.checkUpdate current platform).updateAvailable = true ↔
    ∃ r ∈ m.releases, r.isFor platform ∧ Newer r.version current
  greatest : ∀ v ∈ (m.checkUpdate current platform).version, ∀ r ∈ m.releases,
    r.isFor platform → Newer r.version current → ¬ Newer r.version v
  progress : ∀ v ∈ (m.checkUpdate current platform).version, Newer v current
  downgrade : (∃ e, verifyUpdateNotDowngrade current target false = .error e) ↔
    Newer current target

/-- No zeros decide: the current version does not extend the target, and a release that extends the
current version is not all there is to offer. -/
structure NoZerosDecide (m : UpdateManager) (current platform target : String) : Prop where
  offers : ∀ r ∈ m.releases, r.isFor platform → Extends r.version current →
    ∃ r' ∈ m.releases, r'.isFor platform ∧ Newer r'.version current
  refusals : ¬ Extends current target

section

variable {α β : Type*} [LinearOrder β] (key : α → β) {compare : α → α → Ordering} {l : List α}
  {a best : α}

/-- The item that is found is in the list, and no item has a greater key. -/
theorem maxBy_eq_some (hcompare : ∀ a b, compare a b = .gt ↔ key b < key a)
    (h : maxBy compare l = some best) : best ∈ l ∧ ∀ b ∈ l, key b ≤ key best := by
  cases l with
  | nil => cases h
  | cons a l =>
    rw [maxBy] at h
    obtain rfl := Option.some.inj h
    clear h
    -- the fold starts from any item, which may be the greatest itself
    induction l generalizing a with
    | nil => simp
    | cons b l ih =>
      rw [List.foldl_cons]
      obtain ⟨hmem, hmax⟩ := ih (a := if compare a b = .gt then a else b)
      have hle : key a ≤ key (if compare a b = .gt then a else b) ∧
          key b ≤ key (if compare a b = .gt then a else b) := by
        split_ifs with hgt
        · exact ⟨le_rfl, ((hcompare a b).mp hgt).le⟩
        · exact ⟨not_lt.mp fun hlt => hgt ((hcompare a b).mpr hlt), le_rfl⟩
      have hstart := hmax _ List.mem_cons_self
      refine ⟨?_, ?_⟩
      · rcases List.mem_cons.mp hmem with heq | hmem
        · rw [heq]
          split_ifs
          · exact List.mem_cons_self
          · exact List.mem_cons_of_mem _ List.mem_cons_self
        · exact List.mem_cons_of_mem _ (List.mem_cons_of_mem _ hmem)
      · simp only [List.forall_mem_cons]
        exact ⟨hle.1.trans hstart, hle.2.trans hstart,
          fun c hc => hmax c (List.mem_cons_of_mem _ hc)⟩

end

variable {m : UpdateManager} {v w current platform target : String}

theorem versionCmp_eq_gt : versionCmp v w = .gt ↔ versionParts w < versionParts v := by
  unfold versionCmp cmp cmpUsing
  split_ifs with hlt hgt
  · exact iff_of_false nofun hlt.asymm
  · exact iff_of_true rfl hgt
  · exact iff_of_false nofun hgt

/-- Of a version the comparison reads the numbers that it is written with. -/
theorem versionParts_eq (h : IsVersion v) : versionParts v = numbers v := by
  refine List.map_congr_left fun piece hpiece => ?_
  obtain ⟨n, hparse, hn⟩ := h piece hpiece
  rw [Option.mem_def] at hparse
  -- the parser takes a sign before the digits, which the numbers of a version do not have
  have hplus : parseUnsigned 32 piece = (parseDigits piece).filter fun n => n < 2 ^ 32 := by
    unfold parseUnsigned
    split
    · next rest =>
      have hsign : parseDigits ('+' :: rest) = none := if_neg (by simp)
      rw [hsign] at hparse
      cases hparse
    · rfl
  rw [hplus, hparse, Option.filter_some, if_pos (decide_eq_true hn)]

theorem lt_versionParts_iff (hv : IsVersion v) (hw : IsVersion w) :
    versionParts w < versionParts v ↔ Newer v w ∨ Extends v w := by
  rw [versionParts_eq hv, versionParts_eq hw, lt_iff_padded]
  rfl

theorem not_newer_of_extends (h : Extends v w) : ¬ Newer v w := by
  obtain ⟨k, hk⟩ := h
  rw [Newer, hk, padded_append_replicate]
  exact lt_irrefl _

/-- A release is offered if one comes after the current version, and then none comes after it. -/
theorem checkUpdate_cases (m : UpdateManager) (current platform : String) :
    (m.checkUpdate current platform = .upToDate ∧ ∀ r ∈ m.releases, r.isFor platform →
      ¬ versionParts current < versionParts r.version) ∨
    ∃ r ∈ m.releases, r.isFor platform ∧ m.checkUpdate current platform = .offer r ∧
      versionParts current < versionParts r.version ∧
      ∀ r' ∈ m.releases, r'.isFor platform → versionParts r'.version ≤ versionParts r.version := by
  have hmem : ∀ r, r ∈ m.releases.filter (Release.isFor platform) ↔
      r ∈ m.releases ∧ r.isFor platform := fun r => List.mem_filter
  unfold UpdateManager.checkUpdate
  cases hlatest : maxBy (fun a b => versionCmp a.version b.version)
      (m.releases.filter (Release.isFor platform)) with
  | none =>
    refine .inl ⟨rfl, fun r hr hfor => ?_⟩
    cases hfilter : m.releases.filter (Release.isFor platform) with
    | nil => exact absurd ((hmem r).mpr ⟨hr, hfor⟩) (hfilter ▸ List.not_mem_nil)
    | cons a l =>
      rw [hfilter] at hlatest
      cases hlatest
  | some best =>
    obtain ⟨hbest, hmax⟩ := maxBy_eq_some (fun r : Release => versionParts r.version)
      (fun _ _ => versionCmp_eq_gt) hlatest
    obtain ⟨hbest, hfor⟩ := (hmem best).mp hbest
    dsimp only
    split_ifs with hgt
    · exact .inr ⟨best, hbest, hfor, rfl, versionCmp_eq_gt.mp hgt,
        fun r hr hr' => hmax r ((hmem r).mpr ⟨hr, hr'⟩)⟩
    · refine .inl ⟨rfl, fun r hr hr' hlt => hgt (versionCmp_eq_gt.mpr ?_)⟩
      exact hlt.trans_le (hmax r ((hmem r).mpr ⟨hr, hr'⟩))

theorem verifyUpdateNotDowngrade_eq_error :
    (∃ e, verifyUpdateNotDowngrade current target false = .error e) ↔
      versionParts target < versionParts current := by
  rw [← versionCmp_eq_lt]
  unfold verifyUpdateNotDowngrade
  split_ifs with h
  · exact iff_of_true ⟨_, rfl⟩ h.2
  · exact iff_of_false (fun ⟨_, he⟩ => nomatch he) fun hlt => h ⟨rfl, hlt⟩

/-- An offer follows the order of the versions if and only if it is not made for zeros alone. -/
theorem checkUpdate_follows_iff (platform : String)
    (hreleases : ∀ r ∈ m.releases, IsVersion r.version) (hcurrent : IsVersion current) :
    (((m.checkUpdate current platform).updateAvailable = true ↔
        ∃ r ∈ m.releases, r.isFor platform ∧ Newer r.version current) ∧
      (∀ v ∈ (m.checkUpdate current platform).version, ∀ r ∈ m.releases,
        r.isFor platform → Newer r.version current → ¬ Newer r.version v) ∧
      ∀ v ∈ (m.checkUpdate current platform).version, Newer v current) ↔
    ∀ r ∈ m.releases, r.isFor platform → Extends r.version current →
      ∃ r' ∈ m.releases, r'.isFor platform ∧ Newer r'.version current := by
  rcases checkUpdate_cases m current platform with ⟨hcheck, hnone⟩ | ⟨best, hbest, hfor, hcheck,
    hlt, hmax⟩
  · rw [hcheck]
    -- nothing comes after the current version, neither as a newer one nor with more zeros
    have hno : ∀ r ∈ m.releases, r.isFor platform →
        ¬ (Newer r.version current ∨ Extends r.version current) := by
      intro r hr hr' hafter
      exact hnone r hr hr' ((lt_versionParts_iff (hreleases r hr) hcurrent).mpr hafter)
    refine iff_of_true ⟨?_, nofun, nofun⟩ fun r hr hr' hextends =>
      absurd (.inr hextends) (hno r hr hr')
    exact iff_of_false nofun fun ⟨r, hr, hr', hnewer⟩ => hno r hr hr' (.inl hnewer)
  · rw [hcheck]
    have hgreatest : ∀ r ∈ m.releases, r.isFor platform → ¬ Newer r.version best.version := by
      intro r hr hr' hnewer
      have hafter := (lt_versionParts_iff (hreleases r hr) (hreleases best hbest)).mpr
        (.inl hnewer)
      exact absurd (hmax r hr hr') (not_le.mpr hafter)
    constructor
    · rintro ⟨havailable, -, -⟩ r hr hr' -
      exact havailable.mp rfl
    · intro hextends
      have hexists : ∃ r ∈ m.releases, r.isFor platform ∧ Newer r.version current := by
        -- an offer made for zeros alone is justified by another release that is newer
        rcases (lt_versionParts_iff (hreleases best hbest) hcurrent).mp hlt with hnewer | hlonger
        · exact ⟨best, hbest, hfor, hnewer⟩
        · exact hextends best hbest hfor hlonger
      refine ⟨iff_of_true rfl hexists, fun v hv r hr hr' _ => ?_, fun v hv => ?_⟩
      · obtain rfl : best.version = v := Option.some.inj hv
        exact hgreatest r hr hr'
      · obtain rfl : best.version = v := Option.some.inj hv
        obtain ⟨r, hr, hr', hnewer⟩ := hexists
        exact lt_of_lt_of_le hnewer (not_lt.mp (hgreatest r hr hr'))

theorem downgrade_follows_iff (hcurrent : IsVersion current) (htarget : IsVersion target) :
    ((∃ e, verifyUpdateNotDowngrade current target false = .error e) ↔ Newer current target) ↔
      ¬ Extends current target := by
  rw [verifyUpdateNotDowngrade_eq_error, lt_versionParts_iff hcurrent htarget]
  constructor
  · exact fun h hextends => not_newer_of_extends hextends (h.mp (.inr hextends))
  · exact fun h => or_iff_left h

/-- Offers and refusals follow the order of the versions if and only if no zeros decide. -/
theorem followsVersions_iff (platform : String)
    (hreleases : ∀ r ∈ m.releases, IsVersion r.version) (hcurrent : IsVersion current)
    (htarget : IsVersion target) :
    FollowsVersions m current platform target ↔ NoZerosDecide m current platform target := by
  have hoffers := checkUpdate_follows_iff platform hreleases hcurrent
  have hrefusals := downgrade_follows_iff hcurrent htarget
  constructor
  · rintro ⟨havailable, hgreatest, hprogress, hdowngrade⟩
    exact ⟨hoffers.mp ⟨havailable, hgreatest, hprogress⟩, hrefusals.mp hdowngrade⟩
  · rintro ⟨hextends, hnot⟩
    obtain ⟨havailable, hgreatest, hprogress⟩ := hoffers.mpr hextends
    exact ⟨havailable, hgreatest, hprogress, hrefusals.mpr hnot⟩

/-- A release for every platform. -/
def universalRelease (version : String) : Release :=
  ⟨version, "universal", "", "wardex", 0, "", false, "", none, none, none, none, none⟩

def published (version : String) : UpdateManager :=
  { UpdateManager.new with releases := [universalRelease version] }

theorem followsVersions_iff_patch :
    FollowsVersions (published "1.0.1") "1.0" "linux" "1.0.1" ↔
      NoZerosDecide (published "1.0.1") "1.0" "linux" "1.0.1" :=
  followsVersions_iff "linux" (List.forall_mem_singleton.mpr (by decide)) (by decide) (by decide)

/-- An agent of version 1.0 is offered 1.0.0, and one of version 1.0.0 may not go to 1.0. -/
theorem two_spellings :
    ¬ ∀ (m : UpdateManager) (current platform target : String),
      (∀ r ∈ m.releases, IsVersion r.version) → IsVersion current → IsVersion target →
        FollowsVersions m current platform target := by
  intro h
  have hreleases : ∀ r ∈ (published "1.0.0").releases, IsVersion r.version :=
    List.forall_mem_singleton.mpr (by decide)
  have hfollows := h (published "1.0.0") "1.0" "linux" "1.0" hreleases (by decide) (by decide)
  obtain ⟨r, hr, -, hnewer⟩ := hfollows.available.mp rfl
  obtain rfl := List.mem_singleton.mp hr
  exact not_newer_of_extends ⟨0, rfl⟩ hnewer

end Wardex.Updates
