import Wardex.Lib.Run
import Wardex.ThreatIntel.Decay
import Mathlib.Algebra.Order.Group.MinMax
import Mathlib.Tactic.Linarith
import Mathlib.Tactic.Ring

/-! Many passes over one store.  Each pass multiplies the confidence that the pass before it wrote,
by a factor for the whole age; it is meant to leave the original confidence times that factor. -/

namespace Wardex.ThreatIntel

open Wardex.Lib Wardex.Enrollment

/-- A pass, at an instant that is written and read back as it is. -/
structure DecayCall (chrono : Chrono) where
  now : ℤ
  finished : ℤ
  order : HashTable.IterationOrder String IoC
  clock : chrono.parse (chrono.format now) = some now

/-- The store, with the time of the last pass over it. -/
structure DecayState where
  store : ThreatIntelStore
  lastPass : Option ℤ

variable (chrono : Chrono) (decayFactor : ℚ → ℕ → ℚ) (config : DecayConfig)

def DecayState.after (s : DecayState) (call : DecayCall chrono) : DecayState where
  store :=
    (applyDecay chrono decayFactor config call.now call.order s.store call.finished).1
  lastPass := some call.now

/-- Every indicator has, within the threshold, its original confidence times the factor for its age
at the last pass, which is also what `preview_decay` says of the original. -/
def FollowsAge (start : ThreatIntelStore) (s : DecayState) : Prop :=
  ∀ now, s.lastPass = some now → ∀ k original ioc, start.iocs.lookup k = some original →
    s.store.iocs.lookup k = some ioc →
      |ioc.confidence - previewDecay chrono decayFactor config now original| ≤ 1 / 1000 ∧
      ∀ lastSeen, chrono.parse original.lastSeen = some lastSeen →
        |ioc.confidence -
          original.confidence * decayFactor config.halfLifeDays (ageSecs now lastSeen)| ≤ 1 / 1000

/-- A pass at the instant of the pass before it changes nothing. -/
def RepeatsNothing (s : DecayState) (call : DecayCall chrono) : Prop :=
  s.lastPass = some call.now → ∀ k,
    (s.after chrono decayFactor config call).store.iocs.lookup k = s.store.iocs.lookup k

/-- The pass writes another confidence. -/
def Rewritten (now : ℤ) (ioc : IoC) : Prop :=
  ∃ lastSeen, chrono.parse ioc.lastSeen = some lastSeen ∧
    ageSecs now lastSeen ≤ config.maxAgeDays * 86400 ∧
    config.minConfidence ≤
      ioc.confidence * decayFactor config.halfLifeDays (ageSecs now lastSeen) ∧
    1 / 1000 <
      |ioc.confidence * decayFactor config.halfLifeDays (ageSecs now lastSeen) - ioc.confidence|

/-- Of an indicator that is rewritten, the passes before have taken no more than the threshold
allows after this one; one that stays as it is has the right confidence already. -/
def TakesOnce (start : ThreatIntelStore) (s : DecayState) (call : DecayCall chrono) : Prop :=
  ∀ k original ioc lastSeen, start.iocs.lookup k = some original →
    s.store.iocs.lookup k = some ioc → chrono.parse original.lastSeen = some lastSeen →
    ¬Purged chrono decayFactor config call.now s.store ioc →
      (Rewritten chrono decayFactor config call.now ioc →
        |(original.confidence - ioc.confidence) *
          decayFactor config.halfLifeDays (ageSecs call.now lastSeen)| ≤ 1 / 1000) ∧
      (¬Rewritten chrono decayFactor config call.now ioc →
        -(1 / 1000) ≤ ioc.confidence ∧
        |ioc.confidence - original.confidence *
          decayFactor config.halfLifeDays (ageSecs call.now lastSeen)| ≤ 1 / 1000)

/-- At the instant of the pass before, nothing is left to be rewritten or purged. -/
def NothingLeft (s : DecayState) (call : DecayCall chrono) : Prop :=
  s.lastPass = some call.now → ∀ k ioc, s.store.iocs.lookup k = some ioc →
    ¬Purged chrono decayFactor config call.now s.store ioc ∧
      ¬Rewritten chrono decayFactor config call.now ioc

variable {chrono decayFactor config} {now : ℤ} {ioc : IoC}

/-! ### One pass over one indicator -/

theorem decayed_of_rewritten {lastSeen : ℤ} (hparse : chrono.parse ioc.lastSeen = some lastSeen)
    (h : Rewritten chrono decayFactor config now ioc) :
    decayed chrono decayFactor config now ioc =
      { ioc with
        confidence :=
          ioc.confidence * decayFactor config.halfLifeDays (ageSecs now lastSeen) } := by
  obtain ⟨seen, hseen, hage, hmin, hfar⟩ := h
  cases hseen.symm.trans hparse
  rw [decayed, outcome, hparse]
  dsimp only
  rw [if_neg (not_or.mpr ⟨not_lt.mpr hage, not_lt.mpr hmin⟩), if_pos hfar]
  rfl

theorem decayed_of_not_rewritten (h : ¬Rewritten chrono decayFactor config now ioc) :
    decayed chrono decayFactor config now ioc = ioc := by
  cases hparse : chrono.parse ioc.lastSeen with
  | none => exact decayed_of_parse_none hparse
  | some lastSeen =>
    rw [decayed, outcome, hparse]
    dsimp only
    split_ifs with hstale hfar
    · rfl
    · rw [not_or, not_lt, not_lt] at hstale
      exact absurd ⟨lastSeen, hparse, hstale.1, hstale.2, hfar⟩ h
    · rfl

theorem decayed_eq_self_iff :
    decayed chrono decayFactor config now ioc = ioc ↔
      ¬Rewritten chrono decayFactor config now ioc := by
  refine ⟨fun heq h => ?_, decayed_of_not_rewritten⟩
  obtain ⟨lastSeen, hparse, _, _, hfar⟩ := id h
  rw [decayed_of_rewritten hparse h] at heq
  have hsame : ioc.confidence * decayFactor config.halfLifeDays (ageSecs now lastSeen) =
      ioc.confidence := congrArg IoC.confidence heq
  rw [hsame, sub_self, abs_zero] at hfar
  exact absurd hfar (by norm_num)

theorem abs_sub_max_zero_le {x y ε : ℚ} (hx : 0 ≤ x) (h : |x - y| ≤ ε) : |x - max y 0| ≤ ε := by
  have hlip := abs_max_sub_max_le_abs x y 0
  rw [max_eq_left hx] at hlip
  exact hlip.trans h

theorem abs_sub_both_le_iff {x y ε : ℚ} :
    |x - max y 0| ≤ ε ∧ |x - y| ≤ ε ↔ -ε ≤ x ∧ |x - y| ≤ ε := by
  refine and_congr_left fun h => ?_
  have hbounds := abs_le.mp h
  rcases le_total 0 y with hy | hy
  · rw [max_eq_left hy]
    exact iff_of_true h (by linarith)
  · rw [max_eq_right hy, sub_zero, abs_le]
    exact and_iff_left (by linarith)

/-- What the pass leaves follows the age exactly if it takes its share once. -/
theorem follows_iff {original : IoC} {lastSeen : ℤ} (henabled : config.enabled = true)
    (hvalid : config.validate = .ok ())
    (hioc : ioc = { original with confidence := ioc.confidence })
    (hparse : chrono.parse original.lastSeen = some lastSeen) :
    (|(decayed chrono decayFactor config now ioc).confidence -
          previewDecay chrono decayFactor config now original| ≤ 1 / 1000 ∧
      |(decayed chrono decayFactor config now ioc).confidence -
        original.confidence * decayFactor config.halfLifeDays (ageSecs now lastSeen)| ≤ 1 / 1000) ↔
      (Rewritten chrono decayFactor config now ioc →
        |(original.confidence - ioc.confidence) *
          decayFactor config.halfLifeDays (ageSecs now lastSeen)| ≤ 1 / 1000) ∧
      (¬Rewritten chrono decayFactor config now ioc →
        -(1 / 1000) ≤ ioc.confidence ∧
        |ioc.confidence - original.confidence *
          decayFactor config.halfLifeDays (ageSecs now lastSeen)| ≤ 1 / 1000) := by
  have hsame : chrono.parse ioc.lastSeen = some lastSeen := by rw [hioc, ← hparse]
  have hpreview : previewDecay chrono decayFactor config now original =
      max (original.confidence * decayFactor config.halfLifeDays (ageSecs now lastSeen)) 0 := by
    rw [previewDecay, if_neg (by rw [henabled]; exact Bool.noConfusion), hparse]
  rw [hpreview]
  by_cases h : Rewritten chrono decayFactor config now ioc
  · rw [decayed_of_rewritten hsame h, imp_iff_right h]
    dsimp only
    have hshare : ioc.confidence * decayFactor config.halfLifeDays (ageSecs now lastSeen) -
        original.confidence * decayFactor config.halfLifeDays (ageSecs now lastSeen) =
          -((original.confidence - ioc.confidence) *
            decayFactor config.halfLifeDays (ageSecs now lastSeen)) := by ring
    obtain ⟨seen, hseen, -, hmin, -⟩ := id h
    cases hseen.symm.trans hsame
    have hnonneg := (DecayConfig.minConfidence_nonneg hvalid).trans hmin
    rw [hshare, abs_neg]
    constructor
    · exact fun hclose => ⟨hclose.2, fun hnot => absurd h hnot⟩
    · intro hclose
      refine ⟨abs_sub_max_zero_le hnonneg ?_, hclose.1⟩
      rw [hshare, abs_neg]
      exact hclose.1
  · rw [decayed_of_not_rewritten h, abs_sub_both_le_iff]
    exact ⟨fun hclose => ⟨fun hyes => absurd hyes h, fun _ => hclose⟩, fun hclose => hclose.2 h⟩

/-! ### All runs -/

/-- What is stored is the original, with another confidence unless it has no age. -/
structure DecayedFrom (chrono : Chrono) (decayFactor : ℚ → ℕ → ℚ) (config : DecayConfig)
    (start : ThreatIntelStore) (s : DecayState) : Prop where
  keyed : s.store.Keyed
  original : ∀ k ioc, s.store.iocs.lookup k = some ioc →
    ∃ original, start.iocs.lookup k = some original ∧
      ioc = { original with confidence := ioc.confidence } ∧
      (chrono.parse original.lastSeen = none → ioc = original)
  follows : FollowsAge chrono decayFactor config start s

section

variable {start : ThreatIntelStore} {s : DecayState} {call : DecayCall chrono}

theorem decayedFrom_start (iocs : List IoC) :
    DecayedFrom chrono decayFactor config (ThreatIntelStore.filledWith iocs)
      ⟨ThreatIntelStore.filledWith iocs, none⟩ where
  keyed := ThreatIntelStore.keyed_filledWith iocs
  original k ioc hioc := ⟨ioc, hioc, rfl, fun _ => rfl⟩
  follows now hnow := by cases hnow

theorem previewDecay_of_parse_none {original : IoC}
    (hparse : chrono.parse original.lastSeen = none) :
    previewDecay chrono decayFactor config now original = original.confidence := by
  rw [previewDecay, hparse]
  exact ite_self _

theorem lookup_after (henabled : config.enabled = true) (hvalid : config.validate = .ok ())
    (h : DecayedFrom chrono decayFactor config start s) (call : DecayCall chrono) {k : String}
    {ioc' : IoC} :
    (s.after chrono decayFactor config call).store.iocs.lookup k = some ioc' ↔
      ∃ ioc, s.store.iocs.lookup k = some ioc ∧
        ¬Purged chrono decayFactor config call.now s.store ioc ∧
          decayed chrono decayFactor config call.now ioc = ioc' :=
  leavesDecayed_applyDecay call.order call.finished henabled hvalid call.clock h.keyed k ioc'

/-- A pass leaves every indicator with the confidence for its age if and only if it takes its share
once. -/
theorem followsAge_after_iff (henabled : config.enabled = true) (hvalid : config.validate = .ok ())
    (h : DecayedFrom chrono decayFactor config start s) :
    FollowsAge chrono decayFactor config start (s.after chrono decayFactor config call) ↔
      TakesOnce chrono decayFactor config start s call := by
  constructor
  · intro hfollows k original ioc lastSeen horiginal hioc hparse hkept
    obtain ⟨original', horiginal', hsame, -⟩ := h.original k ioc hioc
    cases horiginal.symm.trans horiginal'
    have hthere := (lookup_after henabled hvalid h call).mpr ⟨ioc, hioc, hkept, rfl⟩
    have hclose := hfollows call.now rfl k original _ horiginal hthere
    exact (follows_iff henabled hvalid hsame hparse).mp ⟨hclose.1, hclose.2 lastSeen hparse⟩
  · intro honce now hnow k original ioc' horiginal hioc'
    cases hnow
    obtain ⟨ioc, hioc, hkept, rfl⟩ := (lookup_after henabled hvalid h call).mp hioc'
    obtain ⟨original', horiginal', hsame, hunread⟩ := h.original k ioc hioc
    cases horiginal.symm.trans horiginal'
    cases hparse : chrono.parse original.lastSeen with
    | none =>
      cases hunread hparse
      rw [decayed_of_parse_none hparse, previewDecay_of_parse_none hparse, sub_self, abs_zero]
      exact ⟨by norm_num, nofun⟩
    | some lastSeen =>
      have hshare := honce k original ioc lastSeen horiginal hioc hparse hkept
      obtain ⟨hpreview, hage⟩ := (follows_iff henabled hvalid hsame hparse).mpr hshare
      refine ⟨hpreview, fun seen hseen => ?_⟩
      cases hseen
      exact hage

theorem decayedFrom_after (henabled : config.enabled = true) (hvalid : config.validate = .ok ())
    (h : DecayedFrom chrono decayFactor config start s)
    (honce : TakesOnce chrono decayFactor config start s call) :
    DecayedFrom chrono decayFactor config start (s.after chrono decayFactor config call) where
  keyed := keyed_applyDecay henabled hvalid call.clock h.keyed
  original k ioc' hioc' := by
    obtain ⟨ioc, hioc, -, rfl⟩ := (lookup_after henabled hvalid h call).mp hioc'
    obtain ⟨original, horiginal, hsame, hunread⟩ := h.original k ioc hioc
    refine ⟨original, horiginal, ?_, fun hparse => ?_⟩
    · rw [decayed_eq, hsame]
    · cases hunread hparse
      exact decayed_of_parse_none hparse
  follows := (followsAge_after_iff henabled hvalid h).mpr honce

theorem repeatsNothing_iff (henabled : config.enabled = true) (hvalid : config.validate = .ok ())
    (h : DecayedFrom chrono decayFactor config start s) :
    RepeatsNothing chrono decayFactor config s call ↔
      NothingLeft chrono decayFactor config s call := by
  refine imp_congr_right fun _ => ?_
  constructor
  · intro hsame k ioc hioc
    have hthere := (hsame k).trans hioc
    obtain ⟨old, hold, hkept, hdecayed⟩ := (lookup_after henabled hvalid h call).mp hthere
    cases hold.symm.trans hioc
    exact ⟨hkept, decayed_eq_self_iff.mp hdecayed⟩
  · intro hnothing k
    ext ioc
    rw [lookup_after henabled hvalid h call]
    constructor
    · rintro ⟨old, hold, -, rfl⟩
      rw [decayed_of_not_rewritten (hnothing k old hold).2]
      exact hold
    · intro hioc
      obtain ⟨hkept, hright⟩ := hnothing k ioc hioc
      exact ⟨ioc, hioc, hkept, decayed_of_not_rewritten hright⟩

end

/-- A pass an hour after the old address was last seen. -/
def hourlyPass : DecayCall firstHour where
  now := 3600000000000
  finished := 3600000000000
  order := HashTable.IterationOrder.asIs
  clock := by decide +kernel

end Wardex.ThreatIntel
