import Mathlib.Data.List.Sort

/-! The first records of a list that is sorted by decreasing score, and when they do not depend on
the order in which the list was given. -/

namespace Wardex.Lib

variable {α : Type*} {score : α → ℕ}

/-- The order of decreasing scores. -/
def Above (score : α → ℕ) (a b : α) : Prop := score b ≤ score a

instance : DecidableRel (Above score) := fun a b => inferInstanceAs (Decidable (score b ≤ score a))

instance : Std.Total (Above score) := ⟨fun a b => Nat.le_total (score b) (score a)⟩

instance : IsTrans α (Above score) := ⟨fun _ _ _ hab hbc => Nat.le_trans hbc hab⟩

/-- The first `n` after a stable sort. -/
def largest (score : α → ℕ) (n : ℕ) (l : List α) : List α := (l.insertionSort (Above score)).take n

/-- The records are `n` of the list, or all if there are fewer, and none left out has a greater
score than one of them. -/
structure IsLargest (score : α → ℕ) (n : ℕ) (l top : List α) : Prop where
  subperm : top.Subperm l
  length : top.length = min n l.length
  ranked : top.Pairwise (Above score)
  left : ∀ a ∈ top, ∀ b ∈ l, b ∉ top → score b ≤ score a

/-- Records of equal score come after `n` of greater score. -/
def Distinguished (score : α → ℕ) (n : ℕ) (l : List α) : Prop :=
  ∀ a ∈ l, ∀ b ∈ l, a ≠ b → score a = score b → n ≤ l.countP fun c => score a < score c

variable {n : ℕ} {l l' : List α} {a : α}

theorem isLargest_largest (score : α → ℕ) (n : ℕ) (l : List α) :
    IsLargest score n l (largest score n l) := by
  have hperm := List.perm_insertionSort (Above score) l
  have hsorted := List.pairwise_insertionSort (Above score) l
  refine ⟨(List.take_sublist n _).subperm.trans hperm.subperm, ?_,
    hsorted.sublist (List.take_sublist n _), fun a ha b hb hout => ?_⟩
  · rw [largest, List.length_take, hperm.length_eq]
  · rw [← List.take_append_drop n (l.insertionSort (Above score))] at hsorted
    have hdrop : b ∈ (l.insertionSort (Above score)).drop n := by
      have hmem := hperm.mem_iff.mpr hb
      rw [← List.take_append_drop n (l.insertionSort (Above score))] at hmem
      exact (List.mem_append.mp hmem).resolve_left hout
    exact (List.pairwise_append.mp hsorted).2.2 a ha b hdrop

theorem IsLargest.perm {top : List α} (h : IsLargest score n l top) (hperm : l.Perm l') :
    IsLargest score n l' top :=
  ⟨h.subperm.trans hperm.subperm, by rw [h.length, hperm.length_eq], h.ranked,
    fun a ha b hb => h.left a ha b (hperm.mem_iff.mpr hb)⟩

/-- In a sorted list the records of greater score come first. -/
theorem length_takeWhile_of_sorted (hsorted : l.Pairwise (Above score)) (bound : ℕ) :
    (l.takeWhile fun c => bound < score c).length = l.countP fun c => bound < score c := by
  induction l with
  | nil => rfl
  | cons b l ih =>
    obtain ⟨hb, hsorted⟩ := List.pairwise_cons.mp hsorted
    rw [List.takeWhile_cons, List.countP_cons]
    by_cases hlt : bound < score b
    · rw [if_pos (decide_eq_true hlt), if_pos (decide_eq_true hlt), List.length_cons, ih hsorted]
    · have hnone : l.countP (fun c => bound < score c) = 0 := by
        refine List.countP_eq_zero.mpr fun c hc hgreater => hlt ?_
        exact (of_decide_eq_true hgreater).trans_le (hb c hc)
      rw [if_neg (by simpa using hlt), if_neg (by simpa using hlt), hnone]
      rfl

/-- What is given first comes right after the records of greater score. -/
theorem getElem?_insertionSort_cons (a : α) (l : List α) :
    ((a :: l).insertionSort (Above score))[(a :: l).countP fun c => score a < score c]? =
      some a := by
  have hfront : ((l.insertionSort (Above score)).takeWhile fun c => ¬ Above score a c).length =
      (a :: l).countP fun c => score a < score c := by
    have hnot : (fun c => decide ¬ Above score a c) = fun c => decide (score a < score c) := by
      funext c
      exact decide_eq_decide.mpr Nat.not_le
    rw [hnot, length_takeWhile_of_sorted (List.pairwise_insertionSort (Above score) l),
      (List.perm_insertionSort (Above score) l).countP_eq, List.countP_cons_of_neg (by simp)]
  rw [List.insertionSort_cons_eq_take_drop, ← hfront, List.getElem?_append_right (Nat.le_refl _),
    Nat.sub_self]
  rfl

/-- Where it has a score of its own, every order of the list gives a record the same place. -/
theorem getElem?_insertionSort (hperm : l'.Perm l) (hnodup : l.Nodup) (ha : a ∈ l)
    (halone : ∀ b ∈ l, b ≠ a → score b ≠ score a) :
    (l'.insertionSort (Above score))[l.countP fun c => score a < score c]? = some a := by
  have hsort := (List.perm_insertionSort (Above score) l').trans hperm
  have hsorted := List.pairwise_insertionSort (Above score) l'
  have hdistinct := hsort.nodup_iff.mpr hnodup
  obtain ⟨front, back, heq⟩ := List.append_of_mem (hsort.mem_iff.mpr ha)
  rw [← hsort.countP_eq]
  rw [heq] at hsorted hdistinct hsort ⊢
  obtain ⟨-, hback, hfront⟩ := List.pairwise_append.mp hsorted
  have hgreater : front.countP (fun c => score a < score c) = front.length := by
    refine List.countP_eq_length.mpr fun c hc => decide_eq_true ?_
    have hle : score a ≤ score c := hfront c hc a List.mem_cons_self
    have hne : c ≠ a := (List.nodup_append.mp hdistinct).2.2 c hc a List.mem_cons_self
    have hscore := halone c (hsort.subset (List.mem_append_left _ hc)) hne
    omega
  have hnone : (a :: back).countP (fun c => score a < score c) = 0 := by
    refine List.countP_eq_zero.mpr fun c hc hlt => (of_decide_eq_true hlt).not_ge ?_
    rcases List.mem_cons.mp hc with rfl | hc
    · exact Nat.le_refl _
    · exact (List.pairwise_cons.mp hback).1 c hc
  rw [List.countP_append, hgreater, hnone, Nat.add_zero, List.getElem?_append_right (Nat.le_refl _),
    Nat.sub_self]
  rfl

theorem countP_le_of_getElem? {i : ℕ} (hsorted : l.Pairwise (Above score)) (h : l[i]? = some a) :
    l.countP (fun c => score a < score c) ≤ i := by
  obtain ⟨hi, rfl⟩ := List.getElem?_eq_some_iff.mp h
  have hsplit := List.take_append_drop i l
  rw [List.drop_eq_getElem_cons hi] at hsplit
  rw [← hsplit] at hsorted
  obtain ⟨-, hback, -⟩ := List.pairwise_append.mp hsorted
  have hnone : (l[i] :: l.drop (i + 1)).countP (fun c => score l[i] < score c) = 0 := by
    refine List.countP_eq_zero.mpr fun c hc hlt => (of_decide_eq_true hlt).not_ge ?_
    rcases List.mem_cons.mp hc with rfl | hc
    · exact Nat.le_refl _
    · exact (List.pairwise_cons.mp hback).1 c hc
  calc l.countP (fun c => score l[i] < score c)
      = (l.take i ++ l[i] :: l.drop (i + 1)).countP fun c => score l[i] < score c := by rw [hsplit]
    _ = (l.take i).countP fun c => score l[i] < score c := by
      rw [List.countP_append, hnone, Nat.add_zero]
    _ ≤ (l.take i).length := List.countP_le_length
    _ ≤ i := List.length_take_le i l

/-- The largest do not depend on the order of the list exactly where equal scores come late. -/
theorem largest_eq_iff_distinguished (hnodup : l.Nodup) :
    (∀ l' l'' : List α, l'.Perm l → l''.Perm l → largest score n l' = largest score n l'') ↔
      Distinguished score n l := by
  classical
  constructor
  · intro h a ha b hb hne hscore
    by_contra hfew
    have hfirst (c : α) (hc : c ∈ l) (hfew : ¬ n ≤ l.countP fun d => score c < score d)
        (l' : List α) (hperm : l'.Perm l) :
        (largest score n l')[l.countP fun d => score c < score d]? = some c := by
      have hcons := List.perm_cons_erase hc
      rw [h l' (c :: l.erase c) hperm hcons.symm, largest, List.getElem?_take,
        if_pos (Nat.lt_of_not_le hfew), hcons.countP_eq]
      exact getElem?_insertionSort_cons c (l.erase c)
    have ha' := hfirst a ha hfew l (List.Perm.refl l)
    rw [hscore] at hfew ha'
    exact hne (Option.some.inj (ha'.symm.trans (hfirst b hb hfew l (List.Perm.refl l))))
  · intro h l' l'' hperm hperm'
    have hsame (m m' : List α) (hm : m.Perm l) (hm' : m'.Perm l) (i : ℕ) (hi : i < n) (a : α)
        (ha : (m.insertionSort (Above score))[i]? = some a) :
        (m'.insertionSort (Above score))[i]? = some a := by
      have hsort := (List.perm_insertionSort (Above score) m).trans hm
      have hmem : a ∈ l := hsort.subset (List.mem_of_getElem? ha)
      have hle := countP_le_of_getElem? (List.pairwise_insertionSort (Above score) m) ha
      rw [hsort.countP_eq] at hle
      have halone : ∀ b ∈ l, b ≠ a → score b ≠ score a := by
        intro b hb hne hscore
        have hlate := h a hmem b hb hne.symm hscore.symm
        omega
      have hplace := getElem?_insertionSort hm hnodup hmem halone
      have hi' := (List.getElem?_inj (List.getElem?_eq_some_iff.mp ha).1
        (hsort.nodup_iff.mpr hnodup)).mp (ha.trans hplace.symm)
      rw [hi']
      exact getElem?_insertionSort hm' hnodup hmem halone
    refine List.ext_getElem? fun i => ?_
    rw [largest, largest, List.getElem?_take, List.getElem?_take]
    split_ifs with hi
    · refine Option.ext fun a => ⟨?_, ?_⟩
      · exact hsame l' l'' hperm hperm' i hi a
      · exact hsame l'' l' hperm' hperm i hi a
    · rfl

end Wardex.Lib
