import Mathlib.Algebra.Order.Field.Rat
import Mathlib.Data.List.Dedup
import Mathlib.Data.UInt
import Mathlib.Tactic.Ring
import Wardex.Lib.Run
import Wardex.Lib.WeightedMean

/-! Federated averaging without differential privacy.  Devices submit their weights with the number
of samples behind them, and the coordinator replaces its own by an average.  Weights are exact; a
sum of sample counts wraps around, as in a release build. -/

namespace Wardex.Privacy

open Wardex.Lib

structure ModelUpdate where
  deviceId : String
  weights : List ℚ
  sampleCount : UInt64

structure GlobalModel where
  round : UInt64
  weights : List ℚ
  totalSamples : UInt64
  participatingDevices : ℕ
  convergenceDelta : ℚ

structure FederatedCoordinator where
  currentRound : UInt64
  globalWeights : List ℚ
  pendingUpdates : List ModelUpdate
  minParticipants : ℕ

namespace FederatedCoordinator

def new (initialWeights : List ℚ) (minParticipants : ℕ) : FederatedCoordinator :=
  ⟨0, initialWeights, [], minParticipants⟩

def submitUpdate (c : FederatedCoordinator) (update : ModelUpdate) : FederatedCoordinator :=
  { c with pendingUpdates := c.pendingUpdates ++ [update] }

def totalSamples (updates : List ModelUpdate) : UInt64 := (updates.map ModelUpdate.sampleCount).sum

/-- The loop over the updates, each weighted by its share of the samples. -/
def average (dim : ℕ) (total : UInt64) (updates : List ModelUpdate) : List ℚ :=
  updates.foldl (fun newWeights update =>
    addScaled ((update.sampleCount.toNat : ℚ) / total.toNat) newWeights update.weights)
    (List.replicate dim 0)

variable (sqrt : ℚ → ℚ)

def aggregate (c : FederatedCoordinator) : FederatedCoordinator × Option GlobalModel :=
  if c.pendingUpdates.length < c.minParticipants then (c, none)
  else
    let dim := c.globalWeights.length
    let total := totalSamples c.pendingUpdates
    if total = 0 ∨ dim = 0 then (c, none)
    else
      let newWeights := average dim total c.pendingUpdates
      let squares := List.zipWith (fun old new => (old - new) ^ 2) c.globalWeights newWeights
      ({ c with
          currentRound := c.currentRound + 1, globalWeights := newWeights, pendingUpdates := [] },
        some ⟨c.currentRound + 1, newWeights, total, c.pendingUpdates.length, sqrt squares.sum⟩)

inductive Call where
  | submitUpdate (update : ModelUpdate)
  | aggregate

def step (c : FederatedCoordinator) : Call → FederatedCoordinator
  | .submitUpdate update => c.submitUpdate update
  | .aggregate => (c.aggregate sqrt).1

end FederatedCoordinator

/-! ## What an aggregation owes -/

namespace ModelUpdate

def component (update : ModelUpdate) (i : ℕ) : ℚ := update.weights.getD i 0

/-- A component of every update, with the samples that it counts for. -/
def column (updates : List ModelUpdate) (i : ℕ) : List (ℕ × ℚ) :=
  updates.map fun update => (update.sampleCount.toNat, update.component i)

end ModelUpdate

open ModelUpdate

/-- The weights are the average of the updates, component by component. -/
structure IsAverage (updates : List ModelUpdate) (weights : List ℚ) : Prop where
  covered : ∀ u ∈ updates, weights.length ≤ u.weights.length
  mean : ∀ i < weights.length, weights[i]? = some (weightedMean (column updates i))
  between : ∀ i < weights.length, ∀ w, weights[i]? = some w →
    (∃ u ∈ updates, u.component i ≤ w) ∧ ∃ u ∈ updates, w ≤ u.component i

namespace FederatedCoordinator

variable (sqrt : ℚ → ℚ)

def devices (c : FederatedCoordinator) : List String := c.pendingUpdates.map ModelUpdate.deviceId

/-- An aggregation in this state averages over enough devices, one update each, or does nothing. -/
def CountsParticipants (c : FederatedCoordinator) : Prop :=
  match c.aggregate sqrt with
  | (c', none) => c' = c
  | (c', some model) =>
    c.minParticipants ≤ c.devices.dedup.length ∧ c.devices.Nodup ∧
      model.weights = c'.globalWeights ∧ c'.globalWeights.length = c.globalWeights.length ∧
      IsAverage c.pendingUpdates c'.globalWeights

/-- The aggregation is not called off. -/
structure Aggregates (c : FederatedCoordinator) : Prop where
  enough : c.minParticipants ≤ c.pendingUpdates.length
  samples : totalSamples c.pendingUpdates ≠ 0
  dim : c.globalWeights ≠ []

/-- The pending updates come from one device each, have all components of the model, and do not
count more samples than fit in a word, unless the number does not matter. -/
structure OneEach (c : FederatedCoordinator) : Prop where
  distinct : c.devices.Nodup
  covered : ∀ u ∈ c.pendingUpdates, c.globalWeights.length ≤ u.weights.length
  fits : (c.pendingUpdates.map fun u => u.sampleCount.toNat).sum < 2 ^ 64 ∨
    ∀ i < c.globalWeights.length, weightedSum (column c.pendingUpdates i) = 0

end FederatedCoordinator

/-! ## The average -/

section

variable {updates : List ModelUpdate} {i : ℕ}

theorem totalWeight_column (updates : List ModelUpdate) (i : ℕ) :
    totalWeight (column updates i) = (updates.map fun u => u.sampleCount.toNat).sum := by
  rw [totalWeight, column, List.map_map]
  rfl

theorem toNat_totalSamples (updates : List ModelUpdate) :
    (FederatedCoordinator.totalSamples updates).toNat =
      (updates.map fun u => u.sampleCount.toNat).sum % 2 ^ 64 := by
  rw [FederatedCoordinator.totalSamples]
  induction updates with
  | nil => rfl
  | cons u updates ih =>
    rw [List.map_cons, List.sum_cons, UInt64.toNat_add, ih, List.map_cons, List.sum_cons,
      Nat.add_mod_mod]

theorem length_average (dim : ℕ) (total : UInt64) (updates : List ModelUpdate) :
    (FederatedCoordinator.average dim total updates).length = dim := by
  rw [FederatedCoordinator.average]
  induction updates using List.reverseRecOn with
  | nil => exact List.length_replicate
  | append_singleton updates u ih => rw [List.foldl_concat, length_addScaled, ih]

theorem getElem?_average {dim : ℕ} (total : UInt64) (h : i < dim) :
    (FederatedCoordinator.average dim total updates)[i]? =
      some (weightedSum (column updates i) / total.toNat) := by
  rw [FederatedCoordinator.average]
  induction updates using List.reverseRecOn with
  | nil =>
    rw [List.foldl_nil, List.getElem?_replicate, if_pos h]
    simp [weightedSum, column]
  | append_singleton updates u ih =>
    rw [List.foldl_concat, getElem?_addScaled, ih, Option.map_some, ← component]
    simp only [weightedSum, column, List.map_append, List.sum_append, List.map_cons, List.map_nil,
      List.sum_singleton, add_div]
    congr 2
    ring

/-- The average of updates that have all components is between the least and the greatest. -/
theorem between_weightedMean (h : 0 < totalWeight (column updates i)) :
    (∃ u ∈ updates, u.component i ≤ weightedMean (column updates i)) ∧
      ∃ u ∈ updates, weightedMean (column updates i) ≤ u.component i := by
  obtain ⟨p, hp, hle⟩ := exists_le_weightedMean h
  obtain ⟨q, hq, hge⟩ := exists_weightedMean_le h
  obtain ⟨u, hu, rfl⟩ := List.mem_map.mp hp
  obtain ⟨v, hv, rfl⟩ := List.mem_map.mp hq
  exact ⟨⟨u, hu, hle⟩, v, hv, hge⟩

end

namespace FederatedCoordinator

variable {sqrt : ℚ → ℚ} {c : FederatedCoordinator}

theorem aggregate_of_aggregates (sqrt : ℚ → ℚ) (h : c.Aggregates) : ∃ model, c.aggregate sqrt =
    ({ c with
      currentRound := c.currentRound + 1
      globalWeights := average c.globalWeights.length (totalSamples c.pendingUpdates)
        c.pendingUpdates
      pendingUpdates := [] }, some model) ∧
    model.weights = average c.globalWeights.length (totalSamples c.pendingUpdates)
      c.pendingUpdates := by
  have hne : ¬ (totalSamples c.pendingUpdates = 0 ∨ c.globalWeights.length = 0) := by
    rintro (hsamples | hdim)
    · exact h.samples hsamples
    · exact h.dim (List.length_eq_zero_iff.mp hdim)
  rw [aggregate, if_neg (not_lt.mpr h.enough)]
  dsimp only
  rw [if_neg hne]
  exact ⟨_, rfl, rfl⟩

theorem aggregate_of_not_aggregates (h : ¬ c.Aggregates) : c.aggregate sqrt = (c, none) := by
  rw [aggregate]
  split_ifs with henough
  · rfl
  · dsimp only
    split_ifs with hcalled
    · rfl
    · obtain ⟨hsamples, hdim⟩ := not_or.mp hcalled
      refine absurd ⟨not_lt.mp henough, hsamples, fun hnil => hdim ?_⟩ h
      rw [hnil]
      rfl

/-- The divisor of the code is the number of samples, or does not matter. -/
theorem mean_eq_iff {i : ℕ} :
    weightedSum (column c.pendingUpdates i) / (totalSamples c.pendingUpdates).toNat =
        weightedMean (column c.pendingUpdates i) ↔
      (c.pendingUpdates.map fun u => u.sampleCount.toNat).sum < 2 ^ 64 ∨
        weightedSum (column c.pendingUpdates i) = 0 := by
  rw [weightedMean, totalWeight_column, toNat_totalSamples]
  constructor
  · intro h
    refine or_iff_not_imp_right.mpr fun hsum => ?_
    rw [div_eq_mul_inv, div_eq_mul_inv] at h
    have hwrapped := Nat.cast_inj.mp (inv_inj.mp (mul_left_cancel₀ hsum h))
    rw [← hwrapped]
    exact Nat.mod_lt _ (by decide)
  · rintro (hfits | hsum)
    · rw [Nat.mod_eq_of_lt hfits]
    · rw [hsum, zero_div, zero_div]

theorem totalWeight_pos (h : totalSamples c.pendingUpdates ≠ 0) (i : ℕ) :
    0 < totalWeight (column c.pendingUpdates i) := by
  rw [totalWeight_column, Nat.pos_iff_ne_zero]
  intro hzero
  have htotal := toNat_totalSamples c.pendingUpdates
  rw [hzero] at htotal
  exact h (UInt64.toNat_inj.mp htotal)

/-- An aggregation counts its participants exactly where it is called off, or where each pending
update counts for a device of its own and for all components. -/
theorem countsParticipants_iff :
    c.CountsParticipants sqrt ↔ (c.Aggregates → c.OneEach) := by
  by_cases h : c.Aggregates
  · obtain ⟨model, hresult, hweights⟩ := aggregate_of_aggregates sqrt h
    rw [CountsParticipants, hresult]
    dsimp only
    constructor
    · rintro ⟨-, hdistinct, -, -, havg⟩ _
      have hcovered := havg.covered
      rw [length_average] at hcovered
      refine ⟨hdistinct, hcovered, or_iff_not_imp_left.mpr fun hfits i hi => ?_⟩
      have hmean := havg.mean i (by rwa [length_average])
      rw [getElem?_average _ hi, Option.some.injEq, mean_eq_iff] at hmean
      exact hmean.resolve_left hfits
    · intro hone
      have heach := hone h
      have hmean : ∀ i < c.globalWeights.length,
          (average c.globalWeights.length (totalSamples c.pendingUpdates) c.pendingUpdates)[i]? =
            some (weightedMean (column c.pendingUpdates i)) := by
        intro i hi
        rw [getElem?_average _ hi, mean_eq_iff.mpr (heach.fits.imp_right fun hsum => hsum i hi)]
      refine ⟨?_, heach.distinct, hweights, length_average _ _ _, ?_, ?_, ?_⟩
      · rw [heach.distinct.dedup, devices, List.length_map]
        exact h.enough
      · rw [length_average]
        exact heach.covered
      · rw [length_average]
        exact hmean
      · rw [length_average]
        intro i hi w hw
        obtain rfl := Option.some.inj ((hmean i hi).symm.trans hw)
        exact between_weightedMean (totalWeight_pos h.samples i)
  · rw [CountsParticipants, aggregate_of_not_aggregates h]
    exact iff_of_true rfl fun hyes => absurd hyes h

/-- **Federated averaging.**  In every run of submissions and aggregations, each aggregation
averages over enough devices, one update each, or leaves the coordinator as it is, exactly when each
that is not called off finds one update a device, with all components of the model. -/
theorem federated_averaging_iff (sqrt : ℚ → ℚ) (initialWeights : List ℚ) (minParticipants : ℕ)
    (calls : List Call) :
    Along (step sqrt) (fun c call => call = .aggregate → c.CountsParticipants sqrt)
        (new initialWeights minParticipants) calls ↔
      Along (step sqrt) (fun c call => call = .aggregate → c.Aggregates → c.OneEach)
        (new initialWeights minParticipants) calls := by
  simp only [countsParticipants_iff]

/-- One device submits twice. -/
def resubmission : List Call :=
  [.submitUpdate ⟨"device-1", [1], 10⟩, .submitUpdate ⟨"device-1", [1], 10⟩, .aggregate]

/-- Two updates of one device make up for a second participant. -/
theorem resubmission_counts_twice : ¬ ∀ (sqrt : ℚ → ℚ) (initialWeights : List ℚ)
    (minParticipants : ℕ) (calls : List Call),
    Along (step sqrt) (fun c call => call = .aggregate → c.CountsParticipants sqrt)
      (new initialWeights minParticipants) calls := by
  intro h
  have hall := h id [0] 2 resubmission
  have hlast := hall.2.2.1 rfl
  rw [countsParticipants_iff] at hlast
  have heach := hlast ⟨by decide, by decide, by decide⟩
  exact absurd heach.distinct (by decide)

end FederatedCoordinator

end Wardex.Privacy
