import Mathlib.Data.List.Basic
import Mathlib.Data.Nat.Dist
import Mathlib.Order.Lattice.Nat

/-! Negotiating a security posture.  The highest reported level is clamped by one constraint after
the other; a clamp to an inverted interval panics. -/

namespace Wardex.Swarm

structure PostureConstraint where
  deviceId : String
  minLevel : String
  maxLevel : String
  reason : String

/-- The current levels are the entries of a map. -/
structure PostureNegotiation where
  negotiationId : String
  participants : List String
  proposedLevel : String
  currentLevels : List (String × String)
  agreedLevel : Option String
  constraints : List PostureConstraint

def levels : List String := ["nominal", "elevated", "severe", "critical"]

def priority (level : String) : Option ℕ := levels.findIdx? (· = level)

namespace PostureConstraint

def minIdx (c : PostureConstraint) : ℕ := (priority c.minLevel).getD 0

def maxIdx (c : PostureConstraint) : ℕ := (priority c.maxLevel).getD 3

/-- The level with this index lies between the bounds; names that are no levels do not bound. -/
def Allows (c : PostureConstraint) (i : ℕ) : Prop := c.minIdx ≤ i ∧ i ≤ c.maxIdx

end PostureConstraint

/-- `Ord::clamp`, where `None` is a panic. -/
def clampIdx (x lo hi : ℕ) : Option ℕ :=
  if lo ≤ hi then some (if x < lo then lo else if x > hi then hi else x) else none

namespace PostureNegotiation

def new (negotiationId : String) (participants : List String) : PostureNegotiation where
  negotiationId := negotiationId
  participants := participants
  proposedLevel := "elevated"
  currentLevels := []
  agreedLevel := none
  constraints := []

def reportPosture (n : PostureNegotiation) (deviceId level : String) : PostureNegotiation :=
  { n with currentLevels := (deviceId, level) :: n.currentLevels.filter fun p => p.1 ≠ deviceId }

def addConstraint (n : PostureNegotiation) (constraint : PostureConstraint) : PostureNegotiation :=
  { n with constraints := n.constraints ++ [constraint] }

/-- The index of the highest reported level. -/
def maxCurrent (n : PostureNegotiation) : ℕ :=
  ((n.currentLevels.filterMap fun p => priority p.2).max?).getD 0

/-- `None` is a panic. -/
def resolve (n : PostureNegotiation) : Option (PostureNegotiation × Option String) :=
  (n.constraints.foldlM (fun idx c => clampIdx idx c.minIdx c.maxIdx) n.maxCurrent).map
    fun proposedIdx =>
      let agreed := levels.getD (min proposedIdx (levels.length - 1)) ""
      ({ n with agreedLevel := some agreed }, some agreed)

end PostureNegotiation

/-! ## What is to be agreed on -/

/-- A level that all constraints allow. -/
def Feasible (constraints : List PostureConstraint) (i : ℕ) : Prop :=
  i < levels.length ∧ ∀ c ∈ constraints, c.Allows i

/-- The feasible level closest to the highest reported one, or none if there is none. -/
def IsAgreement (n : PostureNegotiation) : Option String → Prop
  | some level => ∃ i, levels[i]? = some level ∧ Feasible n.constraints i ∧
      ∀ j, Feasible n.constraints j → i.dist n.maxCurrent ≤ j.dist n.maxCurrent
  | none => ∀ i, ¬ Feasible n.constraints i

/-- In every order of the constraints, `resolve` returns the same agreement. -/
def Resolves (n : PostureNegotiation) : Prop :=
  ∃ agreement, IsAgreement n agreement ∧
    ∀ constraints : List PostureConstraint, constraints.Perm n.constraints →
      { n with constraints := constraints }.resolve =
        some ({ n with constraints := constraints, agreedLevel := agreement }, agreement)

/-- No minimum is above a maximum, of the same constraint or of another one. -/
def Compatible (constraints : List PostureConstraint) : Prop :=
  ∀ c ∈ constraints, ∀ c' ∈ constraints, c.minIdx ≤ c'.maxIdx

/-! ## Bounds -/

/-- The largest minimum. -/
def lowest (constraints : List PostureConstraint) : ℕ :=
  constraints.foldr (fun c lo => max c.minIdx lo) 0

/-- The smallest maximum, where the last level bounds all. -/
def highest (constraints : List PostureConstraint) : ℕ :=
  constraints.foldr (fun c hi => min c.maxIdx hi) 3

section

variable {c : PostureConstraint} {constraints : List PostureConstraint} {i : ℕ}

theorem priority_lt {level : String} (h : priority level = some i) : i < levels.length :=
  (List.findIdx?_eq_some_iff_getElem.mp h).choose

theorem minIdx_le (c : PostureConstraint) : c.minIdx ≤ 3 := by
  rw [PostureConstraint.minIdx]
  cases h : priority c.minLevel with
  | none => exact Nat.zero_le 3
  | some i => exact Nat.le_of_lt_succ (priority_lt h)

theorem lowest_le_iff : lowest constraints ≤ i ↔ ∀ c ∈ constraints, c.minIdx ≤ i := by
  induction constraints with
  | nil => simp [lowest]
  | cons c constraints ih =>
    rw [List.forall_mem_cons, ← ih]
    exact Nat.max_le

theorem le_highest_iff : i ≤ highest constraints ↔ i ≤ 3 ∧ ∀ c ∈ constraints, i ≤ c.maxIdx := by
  induction constraints with
  | nil => simp [highest]
  | cons c constraints ih =>
    rw [List.forall_mem_cons, and_left_comm, ← ih]
    exact Nat.le_min

theorem feasible_iff :
    Feasible constraints i ↔ lowest constraints ≤ i ∧ i ≤ highest constraints := by
  rw [lowest_le_iff, le_highest_iff]
  constructor
  · rintro ⟨hlevel, hallows⟩
    exact ⟨fun c hc => (hallows c hc).1, Nat.le_of_lt_succ hlevel, fun c hc => (hallows c hc).2⟩
  · rintro ⟨hmin, hlevel, hmax⟩
    exact ⟨Nat.lt_succ_of_le hlevel, fun c hc => ⟨hmin c hc, hmax c hc⟩⟩

/-- Intervals that meet in pairs have a common level. -/
theorem compatible_iff : Compatible constraints ↔ lowest constraints ≤ highest constraints := by
  rw [lowest_le_iff]
  constructor
  · exact fun h c hc => le_highest_iff.mpr ⟨minIdx_le c, fun c' hc' => h c hc c' hc'⟩
  · exact fun h c hc c' hc' => (le_highest_iff.mp (h c hc)).2 c' hc'

theorem lowest_perm {constraints' : List PostureConstraint} (h : constraints'.Perm constraints) :
    lowest constraints' = lowest constraints :=
  eq_of_forall_ge_iff fun i => by simp only [lowest_le_iff, h.mem_iff]

theorem highest_perm {constraints' : List PostureConstraint} (h : constraints'.Perm constraints) :
    highest constraints' = highest constraints :=
  eq_of_forall_le_iff fun i => by simp only [le_highest_iff, h.mem_iff]

end

/-! ## Clamping -/

section

variable {constraints : List PostureConstraint} {n : PostureNegotiation}

/-- Clamping by intervals with a common level clamps by their intersection. -/
theorem clamps (h : lowest constraints ≤ highest constraints) (x : ℕ) :
    ∃ y, constraints.foldlM (fun idx c => clampIdx idx c.minIdx c.maxIdx) x = some y ∧
      min y 3 = max (lowest constraints) (min x (highest constraints)) := by
  induction constraints generalizing x with
  | nil =>
    refine ⟨x, rfl, ?_⟩
    simp [lowest, highest]
  | cons c constraints ih =>
    have hlo : lowest (c :: constraints) = max c.minIdx (lowest constraints) := rfl
    have hhi : highest (c :: constraints) = min c.maxIdx (highest constraints) := rfl
    rw [hlo, hhi] at h
    have hinterval : c.minIdx ≤ c.maxIdx := by omega
    obtain ⟨y, hy, hbound⟩ := ih (by omega)
      (if x < c.minIdx then c.minIdx else if x > c.maxIdx then c.maxIdx else x)
    refine ⟨y, ?_, ?_⟩
    · rw [List.foldlM_cons, clampIdx, if_pos hinterval]
      exact hy
    · rw [hbound, hlo, hhi]
      split_ifs <;> omega

/-- The level of the intersection that is closest to the highest reported one. -/
def agreedIdx (n : PostureNegotiation) : ℕ :=
  max (lowest n.constraints) (min n.maxCurrent (highest n.constraints))

theorem agreedIdx_lt (h : lowest n.constraints ≤ highest n.constraints) :
    agreedIdx n < levels.length := by
  have hlast : highest n.constraints ≤ 3 := (le_highest_iff.mp (Nat.le_refl _)).1
  rw [agreedIdx]
  exact Nat.lt_succ_of_le (max_le (h.trans hlast) ((min_le_right _ _).trans hlast))

theorem isAgreement_agreedIdx (h : lowest n.constraints ≤ highest n.constraints) :
    IsAgreement n (some (levels.getD (agreedIdx n) "")) := by
  refine ⟨agreedIdx n, ?_, ?_, fun j hj => ?_⟩
  · rw [List.getD_eq_getElem?_getD, List.getElem?_eq_getElem (agreedIdx_lt h), Option.getD_some]
  · rw [feasible_iff, agreedIdx]
    omega
  · rw [feasible_iff] at hj
    rw [agreedIdx, Nat.dist, Nat.dist]
    omega

theorem resolve_eq (h : lowest n.constraints ≤ highest n.constraints) :
    n.resolve = some ({ n with agreedLevel := some (levels.getD (agreedIdx n) "") },
      some (levels.getD (agreedIdx n) "")) := by
  obtain ⟨y, hy, hbound⟩ := clamps h n.maxCurrent
  have hagreed : min y (levels.length - 1) = agreedIdx n := hbound
  rw [PostureNegotiation.resolve, hy, Option.map_some, hagreed]

/-- A negotiation that returns always returns a level. -/
theorem agreement_of_resolve {n' : PostureNegotiation} {agreement : Option String}
    (h : n.resolve = some (n', agreement)) : ∃ level, agreement = some level := by
  obtain ⟨y, -, hresult⟩ := Option.map_eq_some_iff.mp h
  exact ⟨_, (congrArg Prod.snd hresult).symm⟩

end

/-- Over every report and every list of constraints: the best level is agreed on, in any order,
if and only if no minimum is above a maximum. -/
theorem resolves_iff (n : PostureNegotiation) : Resolves n ↔ Compatible n.constraints := by
  rw [compatible_iff]
  constructor
  · rintro ⟨agreement, hagreement, hresolve⟩
    obtain ⟨level, rfl⟩ := agreement_of_resolve (hresolve n.constraints (.refl _))
    obtain ⟨i, -, hfeasible, -⟩ := hagreement
    have hbounds := feasible_iff.mp hfeasible
    exact hbounds.1.trans hbounds.2
  · intro h
    refine ⟨_, isAgreement_agreedIdx h, fun constraints hperm => ?_⟩
    have hlo := lowest_perm hperm
    have hhi := highest_perm hperm
    have hresolve : PostureNegotiation.resolve { n with constraints := constraints } = _ :=
      resolve_eq (by rwa [hlo, hhi])
    have hsame : agreedIdx { n with constraints := constraints } = agreedIdx n := by
      rw [agreedIdx, agreedIdx]
      exact congrArg₂ max hlo (congrArg (min n.maxCurrent) hhi)
    rw [hresolve, hsame]

/-- A negotiation about an alert that one participant takes for severe. -/
def negotiation (constraints : List PostureConstraint) : PostureNegotiation where
  negotiationId := "neg-1"
  participants := ["d1", "d2"]
  proposedLevel := "elevated"
  currentLevels := [("d1", "severe")]
  agreedLevel := none
  constraints := constraints

/-- Two devices that want no common level get the level of the last one, and a minimum above its
maximum panics. -/
theorem conflict_resolved :
    let high : PostureConstraint := ⟨"d1", "severe", "critical", "exposed"⟩
    let low : PostureConstraint := ⟨"d2", "nominal", "elevated", "fragile"⟩
    (negotiation [high, low]).resolve.map Prod.snd = some (some "elevated") ∧
      (negotiation [low, high]).resolve.map Prod.snd = some (some "severe") ∧
      (negotiation [⟨"d1", "severe", "nominal", "swapped"⟩]).resolve.isNone ∧
      ¬ Resolves (negotiation [high, low]) := by
  refine ⟨by decide +kernel, by decide +kernel, by decide +kernel, ?_⟩
  rintro ⟨agreement, -, hresolve⟩
  have hfirst := congrArg (Option.map Prod.snd) (hresolve _ (.refl _))
  have hsecond := congrArg (Option.map Prod.snd) (hresolve _ (.swap _ _ _))
  exact absurd (hfirst.trans hsecond.symm) (by decide +kernel)

end Wardex.Swarm
