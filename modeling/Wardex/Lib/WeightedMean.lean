import Mathlib.Algebra.BigOperators.Ring.Finset
import Mathlib.Algebra.BigOperators.Ring.List
import Mathlib.Algebra.BigOperators.Fin
import Mathlib.Algebra.Order.BigOperators.Group.List
import Mathlib.Algebra.Order.Chebyshev
import Mathlib.Algebra.Order.Field.Basic
import Mathlib.Data.List.Induction
import Mathlib.Data.List.MinMax
import Mathlib.Tactic.FieldSimp
import Mathlib.Tactic.Linarith
import Mathlib.Tactic.Ring

/-! Means of values that count with natural numbers, and the vectors in which scaled vectors add
up; how far one value can be from the mean; and how far a sum has risen over the lowest that it has
been. -/

namespace Wardex.Lib

variable {K : Type*} [Field K]

def totalWeight {α : Type*} (ps : List (ℕ × α)) : ℕ := (ps.map Prod.fst).sum

def weightedSum (ps : List (ℕ × K)) : K := (ps.map fun p => (p.1 : K) * p.2).sum

def weightedMean (ps : List (ℕ × K)) : K := weightedSum ps / totalWeight ps

theorem ne_nil_of_totalWeight_pos {α : Type*} {ps : List (ℕ × α)} (h : 0 < totalWeight ps) :
    ps ≠ [] := by
  rintro rfl
  exact absurd h (lt_irrefl 0)

/-! ## Bounds -/

theorem sum_map_fst_mul (ps : List (ℕ × K)) (x : K) :
    (ps.map fun p => (p.1 : K) * x).sum = totalWeight ps * x := by
  rw [List.sum_map_mul_right, totalWeight, Nat.cast_list_sum, List.map_map]
  rfl

section

variable [LinearOrder K] [IsStrictOrderedRing K] {ps : List (ℕ × K)} {lo hi : K}

theorem totalWeight_mul_le_weightedSum (h : ∀ p ∈ ps, lo ≤ p.2) :
    totalWeight ps * lo ≤ weightedSum ps := by
  rw [← sum_map_fst_mul, weightedSum]
  exact List.sum_le_sum fun p hp => mul_le_mul_of_nonneg_left (h p hp) (Nat.cast_nonneg p.1)

theorem weightedSum_le_totalWeight_mul (h : ∀ p ∈ ps, p.2 ≤ hi) :
    weightedSum ps ≤ totalWeight ps * hi := by
  rw [← sum_map_fst_mul, weightedSum]
  exact List.sum_le_sum fun p hp => mul_le_mul_of_nonneg_left (h p hp) (Nat.cast_nonneg p.1)

/-- The mean is not below the least value. -/
theorem exists_le_weightedMean (h : 0 < totalWeight ps) : ∃ p ∈ ps, p.2 ≤ weightedMean ps := by
  obtain ⟨p, hp⟩ := Option.ne_none_iff_exists'.mp
    (mt List.argmin_eq_none.mp (ne_nil_of_totalWeight_pos h) : ps.argmin Prod.snd ≠ none)
  refine ⟨p, List.argmin_mem hp, (le_div_iff₀ (Nat.cast_pos.mpr h)).mpr ?_⟩
  rw [mul_comm]
  exact totalWeight_mul_le_weightedSum fun q hq => List.le_of_mem_argmin hq hp

/-- Nor is it above the greatest. -/
theorem exists_weightedMean_le (h : 0 < totalWeight ps) : ∃ p ∈ ps, weightedMean ps ≤ p.2 := by
  obtain ⟨p, hp⟩ := Option.ne_none_iff_exists'.mp
    (mt List.argmax_eq_none.mp (ne_nil_of_totalWeight_pos h) : ps.argmax Prod.snd ≠ none)
  refine ⟨p, List.argmax_mem hp, (div_le_iff₀ (Nat.cast_pos.mpr h)).mpr ?_⟩
  rw [mul_comm]
  exact weightedSum_le_totalWeight_mul fun q hq => List.le_of_mem_argmax hq hp

end

/-! ## Vectors -/

/-- Adds a scaled vector, as far as the sum has components. -/
def addScaled (factor : K) (sum vector : List K) : List K :=
  vector.zipIdx.foldl (fun sum p =>
    if p.2 < sum.length then sum.modify p.2 (· + p.1 * factor) else sum) sum

theorem length_addScaled (factor : K) (sum vector : List K) :
    (addScaled factor sum vector).length = sum.length := by
  rw [addScaled]
  generalize vector.zipIdx = entries
  induction entries generalizing sum with
  | nil => rfl
  | cons p entries ih =>
    rw [List.foldl_cons, ih]
    split_ifs
    · exact List.length_modify ..
    · rfl

theorem getElem?_addScaledFrom (factor : K) (sum vector : List K) (k i : ℕ) :
    ((vector.zipIdx k).foldl (fun sum p =>
      if p.2 < sum.length then sum.modify p.2 (· + p.1 * factor) else sum) sum)[i]? =
    sum[i]?.map fun a => if k ≤ i then a + vector.getD (i - k) 0 * factor else a := by
  induction vector generalizing sum k with
  | nil => simp
  | cons x vector ih =>
    have hhead : (if k < sum.length then sum.modify k (· + x * factor) else sum)[i]? =
        sum[i]?.map fun a => if k = i then a + x * factor else a := by
      by_cases hk : k < sum.length
      · rw [if_pos hk, List.getElem?_modify]
        rfl
      · rw [if_neg hk]
        cases hi : sum[i]? with
        | none => rfl
        | some a =>
          have hne : k ≠ i := by
            rintro rfl
            exact hk (List.getElem?_eq_some_iff.mp hi).1
          rw [Option.map_some, if_neg hne]
    rw [List.zipIdx_cons, List.foldl_cons, ih, hhead, Option.map_map]
    congr 1
    funext a
    rcases lt_trichotomy k i with h | rfl | h
    · obtain ⟨j, rfl⟩ := Nat.exists_eq_add_of_lt h
      have hne : k ≠ k + j + 1 := h.ne
      have hshift : k + j + 1 - k = j + 1 := by omega
      have hshift' : k + j + 1 - (k + 1) = j := by omega
      simp [hshift, hshift', hne, Nat.le_of_lt h]
    · simp
    · simp [h.ne', h.not_ge, Nat.not_le.mpr (Nat.lt_succ_of_lt h)]

theorem getElem?_addScaled (factor : K) (sum vector : List K) (i : ℕ) :
    (addScaled factor sum vector)[i]? = sum[i]?.map (· + vector.getD i 0 * factor) := by
  have h := getElem?_addScaledFrom factor sum vector 0 i
  simpa [addScaled] using h

/-! ## Spread -/

def mean (xs : List K) : K := xs.sum / xs.length

/-- The mean square less the square of the mean. -/
def variance (xs : List K) : K := (xs.map (· ^ 2)).sum / xs.length - mean xs ^ 2

/-- The mean square of the distances to the mean is the variance. -/
theorem sum_sq_sub_mean [CharZero K] (xs : List K) :
    (xs.map fun x => (x - mean xs) ^ 2).sum = xs.length * variance xs := by
  have hsum (c : K) (ys : List K) : (ys.map fun x => (x - c) ^ 2).sum =
      (ys.map (· ^ 2)).sum - 2 * c * ys.sum + ys.length * c ^ 2 := by
    induction ys with
    | nil => simp
    | cons y ys ih =>
      simp only [List.map_cons, List.sum_cons, List.length_cons, Nat.cast_add, Nat.cast_one, ih]
      ring
  rcases eq_or_ne xs [] with rfl | hne
  · simp
  · have hlength : (xs.length : K) ≠ 0 := Nat.cast_ne_zero.mpr (mt List.length_eq_zero_iff.mp hne)
    rw [hsum, variance, mean]
    field_simp
    ring

section

variable [LinearOrder K] [IsStrictOrderedRing K]

theorem sq_sum_le (xs : List K) : xs.sum ^ 2 ≤ xs.length * (xs.map (· ^ 2)).sum := by
  have h : (∑ i, xs.get i) ^ 2 ≤ (Finset.univ : Finset (Fin xs.length)).card * ∑ i, xs.get i ^ 2 :=
    sq_sum_le_card_mul_sum_sq
  have hsum : ∑ i, xs.get i = xs.sum := by
    rw [← List.sum_ofFn, List.ofFn_get]
  have hsquares : ∑ i, xs.get i ^ 2 = (xs.map (· ^ 2)).sum := by
    rw [← List.sum_ofFn]
    exact congrArg List.sum (List.ofFn_getElem_eq_map xs (· ^ 2))
  rwa [hsum, hsquares, Finset.card_univ, Fintype.card_fin] at h

/-- No single value is far from the mean, for the spread that it brings about itself. -/
theorem sq_sub_mean_le (xs : List K) (x : K) :
    (x - mean (xs ++ [x])) ^ 2 ≤ xs.length * variance (xs ++ [x]) := by
  have hcauchy := sq_sum_le xs
  have hn : (0 : K) ≤ xs.length := Nat.cast_nonneg _
  unfold variance mean
  simp only [List.sum_append, List.sum_singleton, List.length_append, List.length_singleton,
    List.map_append, List.map_cons, List.map_nil, Nat.cast_add, Nat.cast_one]
  generalize (xs.length : K) = n at *
  generalize (xs.map (· ^ 2)).sum = q at *
  generalize xs.sum = s at *
  have hpos : 0 < n + 1 := by linarith
  have hdiff : n * ((q + x ^ 2) / (n + 1) - ((s + x) / (n + 1)) ^ 2) -
      (x - (s + x) / (n + 1)) ^ 2 = (n * q - s ^ 2) / (n + 1) := by
    field_simp
    ring
  have hnonneg : 0 ≤ (n * q - s ^ 2) / (n + 1) := div_nonneg (sub_nonneg.mpr hcauchy) hpos.le
  linarith

theorem variance_nonneg (xs : List K) : 0 ≤ variance xs := by
  rcases eq_or_ne xs [] with rfl | hne
  · simp [variance, mean]
  · have hpos : (0 : K) < xs.length := Nat.cast_pos.mpr (List.length_pos_iff.mpr hne)
    have hsum : 0 ≤ (xs.map fun x => (x - mean xs) ^ 2).sum := by
      refine List.sum_nonneg fun y hy => ?_
      obtain ⟨x, -, rfl⟩ := List.mem_map.mp hy
      exact sq_nonneg _
    rw [sum_sq_sub_mean] at hsum
    exact nonneg_of_mul_nonneg_right hsum hpos

/-- Each value that is at least `c` makes up as much of a sum of values that are not negative. -/
theorem countP_mul_le_sum {α : Type*} {f : α → K} {p : α → Bool} {c : K} {l : List α}
    (hf : ∀ a ∈ l, 0 ≤ f a) (hp : ∀ a ∈ l, p a = true → c ≤ f a) :
    l.countP p * c ≤ (l.map f).sum := by
  induction l with
  | nil => simp
  | cons a l ih =>
    have hrest := ih (fun b hb => hf b (List.mem_cons_of_mem a hb))
      fun b hb => hp b (List.mem_cons_of_mem a hb)
    rw [List.countP_cons, List.map_cons, List.sum_cons]
    split_ifs with ha
    · have hfirst := hp a List.mem_cons_self ha
      push_cast
      linarith
    · have hfirst := hf a List.mem_cons_self
      rw [Nat.add_zero]
      linarith

theorem sq_sub_mean_le_of_mem {xs : List K} {x : K} (h : x ∈ xs) :
    (x - mean xs) ^ 2 ≤ (xs.length - 1) * variance xs := by
  obtain ⟨s, t, rfl⟩ := List.append_of_mem h
  have hperm : (s ++ t ++ [x]).Perm (s ++ x :: t) := by
    rw [List.append_assoc]
    exact (List.perm_append_singleton x t).append_left s
  have hmean : mean (s ++ x :: t) = mean (s ++ t ++ [x]) := by
    rw [mean, mean, hperm.sum_eq, hperm.length_eq]
  have hvariance : variance (s ++ x :: t) = variance (s ++ t ++ [x]) := by
    rw [variance, variance, hmean, (hperm.map _).sum_eq, hperm.length_eq]
  have hfar := sq_sub_mean_le (s ++ t) x
  have hlength : ((s ++ x :: t).length : K) - 1 = (s ++ t).length := by
    rw [← hperm.length_eq, List.length_append, List.length_singleton, Nat.cast_add, Nat.cast_one,
      add_sub_cancel_right]
  rw [hmean, hvariance, hlength]
  exact hfar

/-- At most one value in `t` is as far from the mean as `t` variances. -/
theorem countP_far_le {xs : List K} (h : 0 < variance xs) (t : ℕ) :
    t * xs.countP (fun x => t * variance xs ≤ (x - mean xs) ^ 2) ≤ xs.length := by
  have hsum := countP_mul_le_sum (f := fun x => (x - mean xs) ^ 2)
    (p := fun x => t * variance xs ≤ (x - mean xs) ^ 2) (c := t * variance xs) (l := xs)
    (fun x _ => sq_nonneg _) fun x _ hx => of_decide_eq_true hx
  rw [sum_sq_sub_mean, ← mul_assoc] at hsum
  have hle := le_of_mul_le_mul_right hsum h
  rw [mul_comm]
  exact_mod_cast hle

end

/-! ## Sums from some point on -/

section

variable [LinearOrder K]

/-- The sum, and the lowest that it has been. -/
def tallied (ds : List K) : K × K :=
  ds.foldl (fun tally d => (tally.1 + d, min tally.2 (tally.1 + d))) (0, 0)

theorem tallied_concat (ds : List K) (d : K) : tallied (ds ++ [d]) =
    ((tallied ds).1 + d, min (tallied ds).2 ((tallied ds).1 + d)) := List.foldl_concat ..

/-- The rise over the lowest sum is the greatest sum of the last elements, however many. -/
theorem lt_rise_iff [IsStrictOrderedRing K] (ds : List K) (t : K) :
    t < (tallied ds).1 - (tallied ds).2 ↔ ∃ w, w <:+ ds ∧ t < w.sum := by
  induction ds using List.reverseRecOn generalizing t with
  | nil =>
    constructor
    · intro h
      exact ⟨[], List.suffix_refl [], by simpa [tallied] using h⟩
    · rintro ⟨w, hw, h⟩
      rw [List.suffix_nil.mp hw] at h
      simpa [tallied] using h
  | append_singleton ds d ih =>
    have hrise : (tallied ds).1 + d - min (tallied ds).2 ((tallied ds).1 + d) =
        max ((tallied ds).1 - (tallied ds).2 + d) 0 := by
      rcases le_total (tallied ds).2 ((tallied ds).1 + d) with h | h
      · rw [min_eq_left h, max_eq_left (by linarith)]
        ring
      · rw [min_eq_right h, max_eq_right (by linarith)]
        ring
    rw [tallied_concat, hrise, lt_max_iff, ← sub_lt_iff_lt_add, ih]
    constructor
    · rintro (⟨w, hw, h⟩ | h)
      · refine ⟨w ++ [d], List.suffix_concat_iff.mpr (.inr ⟨w, rfl, hw⟩), ?_⟩
        rw [List.sum_append, List.sum_singleton]
        linarith
      · exact ⟨[], List.nil_suffix, h⟩
    · rintro ⟨w, hw, h⟩
      obtain rfl | ⟨v, rfl, hv⟩ := List.suffix_concat_iff.mp hw
      · exact .inr h
      · rw [List.sum_append, List.sum_singleton] at h
        exact .inl ⟨v, hv, by linarith⟩

end

end Wardex.Lib
