import Mathlib.Data.List.Sort
import Mathlib.Data.Int.Order.Basic

/-! Lists sorted by a key, and the windows of one width that a scan over a list sorted by time takes
out of it: from each element on, all that follow within the width, if they are dense enough.  After
a window the scan goes on behind it, else at the next element. -/

namespace Wardex.Lib

variable {α κ : Type*} [LinearOrder κ]

/-! ## Sorted lists -/

/-- The order of growing keys. -/
def Rising (key : α → κ) (a b : α) : Prop := key a ≤ key b

instance (key : α → κ) : DecidableRel (Rising key) :=
  fun a b => inferInstanceAs (Decidable (key a ≤ key b))

instance (key : α → κ) : Std.Total (Rising key) := ⟨fun a b => le_total (key a) (key b)⟩

instance (key : α → κ) : IsTrans α (Rising key) := ⟨fun _ _ _ hab hbc => le_trans hab hbc⟩

variable {key : α → κ} {l l' : List α}

theorem pairwise_sorted (key : α → κ) (l : List α) :
    (l.insertionSort (Rising key)).Pairwise (Rising key) :=
  List.pairwise_insertionSort _ _

/-- The first key of a sorted list is the least, and its last the greatest. -/
theorem ends_of_mem {a first last : α} (hl : l.Pairwise (Rising key)) (ha : a ∈ l)
    (hfirst : l.head? = some first) (hlast : l.getLast? = some last) :
    key first ≤ key a ∧ key a ≤ key last := by
  constructor
  · obtain ⟨rest, rfl⟩ := List.head?_eq_some_iff.mp hfirst
    rcases List.mem_cons.mp ha with rfl | hmem
    · exact le_rfl
    · exact (List.pairwise_cons.mp hl).1 a hmem
  · obtain ⟨before, rfl⟩ := List.getLast?_eq_some_iff.mp hlast
    rcases List.mem_append.mp ha with hmem | hmem
    · exact (List.pairwise_append.mp hl).2.2 a hmem last (List.mem_singleton_self last)
    · obtain rfl := List.mem_singleton.mp hmem
      exact le_rfl

/-- The keys of a sorted list are those of any other order of it. -/
theorem map_eq_of_perm (hl : l.Pairwise (Rising key)) (hl' : l'.Pairwise (Rising key))
    (h : l.Perm l') : l.map key = l'.map key := by
  have hkeys : (l.map key).Pairwise (· ≤ ·) := List.pairwise_map.mpr hl
  have hkeys' : (l'.map key).Pairwise (· ≤ ·) := List.pairwise_map.mpr hl'
  exact List.Perm.eq_of_pairwise' hkeys hkeys' (h.map key)

/-- Where an element is inserted among the first of a list does not depend on the rest of it. -/
theorem take_orderedInsert (a : α) (l : List α) (n : ℕ) :
    (l.orderedInsert (Rising key) a).take n =
      ((l.take n).orderedInsert (Rising key) a).take n := by
  induction l generalizing n with
  | nil => rw [List.take_nil]
  | cons b l ih =>
    cases n with
    | zero => rfl
    | succ n =>
      rw [List.take_succ_cons, List.orderedInsert_cons, List.orderedInsert_cons]
      split_ifs
      · rw [List.take_succ_cons, List.take_succ_cons]
        cases n with
        | zero => rfl
        | succ n =>
          rw [List.take_succ_cons, List.take_succ_cons, List.take_take, min_eq_left n.le_succ]
      · rw [List.take_succ_cons, List.take_succ_cons, ih n]

/-- The first `n` after sorting need no more than the first `n` of a part that is sorted. -/
theorem take_insertionSort_append {p : List α} (hp : p.Pairwise (Rising key)) {n k : ℕ}
    (hle : n ≤ k) (l : List α) : ((l ++ p.take k).insertionSort (Rising key)).take n =
      ((l ++ p).insertionSort (Rising key)).take n := by
  induction l with
  | nil =>
    rw [List.nil_append, List.nil_append, hp.insertionSort_eq,
      (hp.sublist (List.take_sublist k p)).insertionSort_eq, List.take_take, min_eq_left hle]
  | cons a l ih =>
    rw [List.cons_append, List.cons_append, List.insertionSort_cons, List.insertionSort_cons,
      take_orderedInsert, ih, ← take_orderedInsert]

/-- What a bound on the key cuts off from a sorted list. -/
theorem takeWhile_eq_filter {p : α → Bool} (hl : l.Pairwise (Rising key))
    (hp : ∀ a b, key a ≤ key b → p b = true → p a = true) : l.takeWhile p = l.filter p := by
  induction l with
  | nil => rfl
  | cons a l ih =>
    obtain ⟨ha, hl⟩ := List.pairwise_cons.mp hl
    rw [List.takeWhile_cons, List.filter_cons, ih hl]
    split_ifs with hpa
    · rfl
    · have hnone : ∀ b ∈ l, ¬ p b = true := fun b hb hpb => hpa (hp a b (ha b hb) hpb)
      rw [List.filter_eq_nil_iff.mpr hnone]

theorem dropWhile_eq_filter_not {p : α → Bool} (hl : l.Pairwise (Rising key))
    (hp : ∀ a b, key a ≤ key b → p b = true → p a = true) :
    l.dropWhile p = l.filter fun a => !p a := by
  induction l with
  | nil => rfl
  | cons a l ih =>
    obtain ⟨ha, hl'⟩ := List.pairwise_cons.mp hl
    rw [List.dropWhile_cons]
    split_ifs with hpa
    · rw [ih hl', List.filter_cons_of_neg (by simp [hpa])]
    · have hall : ∀ b ∈ a :: l, (!p b) = true := by
        intro b hb
        rw [Bool.not_eq_true']
        refine Bool.eq_false_iff.mpr fun hpb => hpa ?_
        rcases List.mem_cons.mp hb with rfl | hb
        · exact hpb
        · exact hp a b (ha b hb) hpb
      rw [List.filter_eq_self.mpr hall]

/-! ## Windows -/

/-- The windows with the elements that they start at. -/
def slide (within : α → α → Bool) (dense : List α → Bool) (hdense : dense [] = false) :
    List α → List (α × List α)
  | [] => []
  | e :: rest =>
    if _h : dense ((e :: rest).takeWhile (within e)) = true then
      (e, (e :: rest).takeWhile (within e)) ::
        slide within dense hdense ((e :: rest).dropWhile (within e))
    else slide within dense hdense rest
termination_by l => l.length
decreasing_by
  · rw [List.dropWhile_cons]
    split_ifs with hself
    · exact Nat.lt_succ_of_le (List.dropWhile_suffix _).length_le
    · rw [List.takeWhile_cons, if_neg hself, hdense] at _h
      exact absurd _h Bool.false_ne_true
  · exact Nat.lt_succ_self _

/-- Two windows that start at the same time and hold the same elements, sorted alike. -/
structure SameWindow (time : α → ℤ) (p q : α × List α) : Prop where
  first : time p.1 = time q.1
  perm : p.2.Perm q.2
  times : p.2.map time = q.2.map time

section

variable {time : α → ℤ} {width : ℤ} {within : α → α → Bool} {dense : List α → Bool}
  {hdense : dense [] = false}

/-- The elements at or after `first`, and within the width. -/
def span (time : α → ℤ) (width first : ℤ) (l : List α) : List α :=
  l.filter fun a => first ≤ time a ∧ time a ≤ first + width

theorem mem_span {first : ℤ} {a : α} :
    a ∈ span time width first l ↔ a ∈ l ∧ first ≤ time a ∧ time a ≤ first + width := by
  rw [span, List.mem_filter, decide_eq_true_eq]

theorem span_filter {first bound : ℤ} (h : bound < first) :
    span time width first (l.filter fun a => bound < time a) = span time width first l := by
  rw [span, span, List.filter_filter]
  refine List.filter_congr fun a _ => ?_
  rw [Bool.eq_iff_iff, Bool.and_eq_true, decide_eq_true_eq, decide_eq_true_eq]
  exact and_iff_left_of_imp fun ha => h.trans_le ha.1

theorem span_perm (time : α → ℤ) (width first : ℤ) (h : l.Perm l') :
    (span time width first l).Perm (span time width first l') := h.filter _

theorem takeWhile_eq_span (hwithin : ∀ a b, within a b = true ↔ time b ≤ time a + width) {e : α}
    (hl : (e :: l).Pairwise (Rising time)) :
    (e :: l).takeWhile (within e) = span time width (time e) (e :: l) := by
  rw [takeWhile_eq_filter hl fun a b hab hb =>
    (hwithin e a).mpr (hab.trans ((hwithin e b).mp hb)), span]
  refine List.filter_congr fun a ha => ?_
  have hfirst : time e ≤ time a := by
    rcases List.mem_cons.mp ha with rfl | ha
    · exact le_rfl
    · exact (List.pairwise_cons.mp hl).1 a ha
  rw [Bool.eq_iff_iff, hwithin, decide_eq_true_eq]
  exact (and_iff_right hfirst).symm

theorem dropWhile_eq_later (hwithin : ∀ a b, within a b = true ↔ time b ≤ time a + width) {e : α}
    (hl : (e :: l).Pairwise (Rising time)) :
    (e :: l).dropWhile (within e) = (e :: l).filter fun a => time e + width < time a := by
  rw [dropWhile_eq_filter_not hl fun a b hab hb =>
    (hwithin e a).mpr (hab.trans ((hwithin e b).mp hb))]
  refine List.filter_congr fun a _ => ?_
  rw [Bool.eq_iff_iff, Bool.not_eq_true', ← Bool.not_eq_true, hwithin, not_le, decide_eq_true_eq]

/-- Where no window starts at `e`, none starts at an element of the same time. -/
theorem slide_skip (hwithin : ∀ a b, within a b = true ↔ time b ≤ time a + width)
    (hmono : ∀ {l l' : List α}, l ⊆ l' → dense l = true → dense l' = true) {e : α}
    (hl : (e :: l).Pairwise (Rising time))
    (h : ¬ dense (span time width (time e) (e :: l)) = true) :
    slide within dense hdense l =
      slide within dense hdense ((e :: l).filter fun a => time e < time a) := by
  induction l generalizing e with
  | nil => simp
  | cons f l ih =>
    obtain ⟨he, hl'⟩ := List.pairwise_cons.mp hl
    rcases (he f List.mem_cons_self).eq_or_lt with heq | hlt
    · have hf : ¬ dense (span time width (time f) (f :: l)) = true := by
        refine mt (hmono ?_) h
        rw [heq]
        exact List.filter_subset _ (List.subset_cons_self _ _)
      rw [slide, dif_neg (by rwa [takeWhile_eq_span hwithin hl']), ih hl' hf, heq]
      simp [heq]
    · have hall : ∀ a ∈ f :: l, decide (time e < time a) = true := by
        intro a ha
        rw [decide_eq_true_eq]
        rcases List.mem_cons.mp ha with rfl | ha
        · exact hlt
        · exact hlt.trans_le ((List.pairwise_cons.mp hl').1 a ha)
      rw [List.filter_cons_of_neg (by simp), List.filter_eq_self.mpr hall]

/-- The scan as a recursion over times: on from the end of a window, or from the next time. -/
theorem slide_cons (hwithin : ∀ a b, within a b = true ↔ time b ≤ time a + width)
    (hmono : ∀ {l l' : List α}, l ⊆ l' → dense l = true → dense l' = true) {e : α}
    (hl : (e :: l).Pairwise (Rising time)) :
    slide within dense hdense (e :: l) =
      if dense (span time width (time e) (e :: l)) = true then
        (e, span time width (time e) (e :: l)) ::
          slide within dense hdense ((e :: l).filter fun a => time e + width < time a)
      else slide within dense hdense ((e :: l).filter fun a => time e < time a) := by
  rw [slide, takeWhile_eq_span hwithin hl, dropWhile_eq_later hwithin hl]
  split_ifs with h
  · rfl
  · exact slide_skip hwithin hmono hl h

/-- What holds of the empty list, and of a list whenever it holds of the elements after its first
window or its first time, holds of every sorted list. -/
theorem slide_induction (hwithin : ∀ a b, within a b = true ↔ time b ≤ time a + width)
    (hmono : ∀ {l l' : List α}, l ⊆ l' → dense l = true → dense l' = true) (hwidth : 0 ≤ width)
    {P : List α → List (α × List α) → Prop} (hnil : P [] [])
    (hwindow : ∀ e l, (e :: l).Pairwise (Rising time) →
      dense (span time width (time e) (e :: l)) = true →
      P ((e :: l).filter fun a => time e + width < time a)
        (slide within dense hdense ((e :: l).filter fun a => time e + width < time a)) →
      P (e :: l) ((e, span time width (time e) (e :: l)) ::
        slide within dense hdense ((e :: l).filter fun a => time e + width < time a)))
    (hskip : ∀ e l, (e :: l).Pairwise (Rising time) →
      ¬ dense (span time width (time e) (e :: l)) = true →
      P ((e :: l).filter fun a => time e < time a)
        (slide within dense hdense ((e :: l).filter fun a => time e < time a)) →
      P (e :: l) (slide within dense hdense ((e :: l).filter fun a => time e < time a)))
    (hl : l.Pairwise (Rising time)) : P l (slide within dense hdense l) := by
  induction hn : l.length using Nat.strong_induction_on generalizing l with
  | _ n ih =>
    cases l with
    | nil =>
      rw [slide]
      exact hnil
    | cons e l =>
      have hlength {p : α → Bool} (hp : p e = false) : ((e :: l).filter p).length < n := by
        rw [← hn, List.filter_cons_of_neg (by simp [hp])]
        exact Nat.lt_succ_of_le (List.length_filter_le _ _)
      rw [slide_cons hwithin hmono hl]
      split_ifs with h
      · have hbound : decide (time e + width < time e) = false :=
          decide_eq_false (by omega)
        exact hwindow e l hl h (ih _ (hlength hbound) (hl.filter _) rfl)
      · exact hskip e l hl h (ih _ (hlength (by simp)) (hl.filter _) rfl)

variable (hwithin : ∀ a b, within a b = true ↔ time b ≤ time a + width)
  (hmono : ∀ {l l' : List α}, l ⊆ l' → dense l = true → dense l' = true) (hwidth : 0 ≤ width)

include hwithin hmono hwidth

/-- Each window starts at an element, and is all within the width from there. -/
theorem mem_slide {e : α} {window : List α} (hl : l.Pairwise (Rising time))
    (h : (e, window) ∈ slide within dense hdense l) :
    e ∈ l ∧ window = span time width (time e) l ∧ dense window = true := by
  have hlater {l : List α} {bound : ℤ}
      (h : e ∈ l.filter (fun a => bound < time a) ∧
        window = span time width (time e) (l.filter fun a => bound < time a) ∧
        dense window = true) :
      e ∈ l ∧ window = span time width (time e) l ∧ dense window = true := by
    obtain ⟨he, hwindow, hdense⟩ := h
    obtain ⟨hmem, hbound⟩ := List.mem_filter.mp he
    rw [span_filter (of_decide_eq_true hbound)] at hwindow
    exact ⟨hmem, hwindow, hdense⟩
  refine slide_induction (P := fun l windows => (e, window) ∈ windows → e ∈ l ∧
    window = span time width (time e) l ∧ dense window = true) hwithin hmono hwidth ?_ ?_ ?_ hl h
  · exact nofun
  · intro f l _ hf ih hmem
    rcases List.mem_cons.mp hmem with heq | hmem
    · obtain ⟨rfl, rfl⟩ := Prod.mk.inj heq
      exact ⟨List.mem_cons_self, rfl, hf⟩
    · exact hlater (ih hmem)
  · exact fun f l _ _ ih hmem => hlater (ih hmem)

/-- A window is over before the next one starts. -/
theorem pairwise_slide (hl : l.Pairwise (Rising time)) :
    (slide within dense hdense l).Pairwise fun p q => ∀ a ∈ p.2, time a < time q.1 := by
  refine slide_induction (P := fun _ windows => windows.Pairwise fun p q =>
    ∀ a ∈ p.2, time a < time q.1) hwithin hmono hwidth List.Pairwise.nil ?_ ?_ hl
  · intro e l hl _ ih
    refine List.pairwise_cons.mpr ⟨fun q hq a ha => ?_, ih⟩
    have hq := (mem_slide hwithin hmono hwidth (hl.filter _) hq).1
    exact (mem_span.mp ha).2.2.trans_lt (of_decide_eq_true (List.mem_filter.mp hq).2)
  · exact fun _ _ _ _ ih => ih

/-- Where the elements within a width are dense, a window takes up one of them. -/
theorem exists_window (hl : l.Pairwise (Rising time)) (first : ℤ)
    (h : dense (span time width first l) = true) :
    ∃ p ∈ slide within dense hdense l, ∃ a ∈ p.2, first ≤ time a ∧ time a ≤ first + width := by
  have hlater {l : List α} {bound : ℤ} (hnone : ∀ a ∈ span time width first l, bound < time a) :
      span time width first (l.filter fun a => bound < time a) = span time width first l := by
    rw [span, List.filter_comm]
    exact List.filter_eq_self.mpr fun a ha => decide_eq_true (hnone a ha)
  refine slide_induction (P := fun l windows => dense (span time width first l) = true →
    ∃ p ∈ windows, ∃ a ∈ p.2, first ≤ time a ∧ time a ≤ first + width) hwithin hmono hwidth ?_ ?_ ?_
      hl h
  · intro h
    rw [span, List.filter_nil, hdense] at h
    exact absurd h Bool.false_ne_true
  · intro e l hl _ ih h
    by_cases hnone : ∀ a ∈ span time width first (e :: l), time e + width < time a
    · rw [hlater hnone] at ih
      obtain ⟨p, hp, ha⟩ := ih h
      exact ⟨p, List.mem_cons_of_mem _ hp, ha⟩
    · -- an element within the width lies in the window that starts at `e`
      push Not at hnone
      obtain ⟨a, ha, hle⟩ := hnone
      obtain ⟨hmem, hspan⟩ := mem_span.mp ha
      have hfirst : time e ≤ time a := by
        rcases List.mem_cons.mp hmem with rfl | hmem
        · exact le_rfl
        · exact (List.pairwise_cons.mp hl).1 a hmem
      exact ⟨_, List.mem_cons_self, a, mem_span.mpr ⟨hmem, hfirst, hle⟩, hspan⟩
  · intro e l hl hnot ih h
    refine ih ?_
    rwa [hlater]
    -- from the time of `e` on there are not enough elements
    intro a ha
    by_contra hle
    refine hnot (hmono (fun b hb => ?_) h)
    obtain ⟨hmem, hspan⟩ := mem_span.mp hb
    have hfirst : time e ≤ time b := by
      rcases List.mem_cons.mp hmem with rfl | hmem
      · exact le_rfl
      · exact (List.pairwise_cons.mp hl).1 b hmem
    have hbefore := (mem_span.mp ha).2.1
    exact mem_span.mpr ⟨hmem, hfirst, by omega⟩

/-- The windows of two orders of a list are the same. -/
theorem slide_perm (hl : l.Pairwise (Rising time)) (hl' : l'.Pairwise (Rising time))
    (h : l.Perm l') :
    List.Forall₂ (SameWindow time) (slide within dense hdense l)
      (slide within dense hdense l') := by
  have hfirst {e f : α} {l l' : List α} (hl : (e :: l).Pairwise (Rising time))
      (hl' : (f :: l').Pairwise (Rising time)) (h : (e :: l).Perm (f :: l')) : time e = time f :=
    (List.cons.inj (map_eq_of_perm hl hl' h)).1
  have hcongr {l l' : List α} (h : l.Perm l') : dense l = dense l' :=
    Bool.eq_iff_iff.mpr ⟨hmono h.subset, hmono h.symm.subset⟩
  refine slide_induction (P := fun l windows => ∀ l', l'.Pairwise (Rising time) → l.Perm l' →
    List.Forall₂ (SameWindow time) windows (slide within dense hdense l')) hwithin hmono hwidth
      ?_ ?_ ?_ hl l' hl' h
  · intro l' _ h
    obtain rfl := h.nil_eq
    rw [slide]
    exact List.Forall₂.nil
  · intro e l hl hdense ih l' hl' h
    cases l' with
    | nil => exact absurd h.symm.nil_eq (List.cons_ne_nil _ _).symm
    | cons f l' =>
      have hspan := span_perm time width (time e) h
      rw [slide_cons hwithin hmono hl', ← hfirst hl hl' h, if_pos (hcongr hspan ▸ hdense)]
      have htimes := map_eq_of_perm (hl.filter _) (hl'.filter _) hspan
      exact .cons ⟨hfirst hl hl' h, hspan, htimes⟩ (ih _ (hl'.filter _) (h.filter _))
  · intro e l hl hnot ih l' hl' h
    cases l' with
    | nil => exact absurd h.symm.nil_eq (List.cons_ne_nil _ _).symm
    | cons f l' =>
      have hspan := span_perm time width (time e) h
      rw [slide_cons hwithin hmono hl', ← hfirst hl hl' h, if_neg (hcongr hspan ▸ hnot)]
      exact ih _ (hl'.filter _) (h.filter _)

end

end Wardex.Lib
