import Mathlib.Data.List.GetD
import Mathlib.Data.List.Lex
import Mathlib.Order.PiLex

/-! Lists of numbers of different lengths, compared number by number: with missing numbers read as
zeros, and as lists, where a list comes before its extensions. -/

namespace Wardex.Lib

/-- The numbers with zeros behind them. -/
def padded (l : List ℕ) : Lex (ℕ → ℕ) := toLex fun i => l.getD i 0

variable {a b : List ℕ} {x y : ℕ}

theorem padded_lt_iff :
    padded a < padded b ↔
      ∃ i, (∀ j < i, a.getD j 0 = b.getD j 0) ∧ a.getD i 0 < b.getD i 0 := Iff.rfl

theorem padded_cons_lt :
    padded (x :: a) < padded (y :: b) ↔ x < y ∨ x = y ∧ padded a < padded b := by
  rw [padded_lt_iff, padded_lt_iff]
  constructor
  · rintro ⟨i, heq, hlt⟩
    cases i with
    | zero => exact .inl hlt
    | succ i => exact .inr ⟨heq 0 (Nat.succ_pos i), i, fun j hj => heq (j + 1) (by omega), hlt⟩
  · rintro (hlt | ⟨rfl, i, heq, hlt⟩)
    · exact ⟨0, fun j hj => absurd hj (Nat.not_lt_zero j), hlt⟩
    · refine ⟨i + 1, fun j hj => ?_, hlt⟩
      cases j with
      | zero => rfl
      | succ j => exact heq j (Nat.lt_of_succ_lt_succ hj)

theorem padded_nil : padded [] = padded [0] := by
  refine congrArg toLex (funext fun i => ?_)
  cases i <;> rfl

theorem not_padded_lt_nil (a : List ℕ) : ¬ padded a < padded [] := by
  rw [padded_lt_iff]
  rintro ⟨i, -, hlt⟩
  exact Nat.not_lt_zero _ hlt

/-- A list comes after the empty one because it has a number other than zero, or only zeros. -/
theorem ne_nil_iff_padded :
    b ≠ [] ↔ padded [] < padded b ∨ ∃ k, b = List.replicate (k + 1) 0 := by
  induction b with
  | nil => simp [not_padded_lt_nil]
  | cons y b ih =>
    refine iff_of_true (List.cons_ne_nil y b) ?_
    -- the empty list stands for zeros, of which one may be written
    rw [padded_nil, padded_cons_lt]
    rcases Nat.eq_zero_or_pos y with rfl | hpos
    · by_cases hb : b = []
      · exact .inr ⟨0, hb ▸ rfl⟩
      · rcases ih.mp hb with hlt | ⟨k, rfl⟩
        · exact .inl (.inr ⟨rfl, hlt⟩)
        · exact .inr ⟨k + 1, rfl⟩
    · exact .inl (.inl hpos)

/-- The order of the lists differs from that of the numbers where one is the other with zeros. -/
theorem lt_iff_padded :
    a < b ↔ padded a < padded b ∨ ∃ k, b = a ++ List.replicate (k + 1) 0 := by
  induction a generalizing b with
  | nil =>
    simp only [List.nil_append]
    rw [← ne_nil_iff_padded]
    cases b with
    | nil => simp
    | cons y b => simp
  | cons x a ih =>
    cases b with
    | nil => simp [not_padded_lt_nil]
    | cons y b =>
      rw [List.cons_lt_cons_iff, ih, padded_cons_lt]
      constructor
      · rintro (hlt | ⟨rfl, hlt | ⟨k, rfl⟩⟩)
        · exact .inl (.inl hlt)
        · exact .inl (.inr ⟨rfl, hlt⟩)
        · exact .inr ⟨k, rfl⟩
      · rintro ((hlt | ⟨rfl, hlt⟩) | ⟨k, heq⟩)
        · exact .inl hlt
        · exact .inr ⟨rfl, .inl hlt⟩
        · obtain ⟨rfl, rfl⟩ := List.cons.inj heq
          exact .inr ⟨rfl, .inr ⟨k, rfl⟩⟩

/-- With zeros behind it a list stands for the same numbers. -/
theorem padded_append_replicate (a : List ℕ) (k : ℕ) :
    padded (a ++ List.replicate k 0) = padded a := by
  refine congrArg toLex (funext fun i => ?_)
  rcases Nat.lt_or_ge i a.length with hlt | hge
  · exact List.getD_append a _ 0 i hlt
  · rw [List.getD_append_right a _ 0 i hge, List.getD_eq_default a 0 hge]
    rw [List.getD_eq_getElem?_getD, List.getElem?_replicate]
    split_ifs <;> rfl

/-- The number that decides is written in the greater list. -/
theorem padded_lt_iff_exists_lt :
    padded a < padded b ↔
      ∃ i < b.length, (∀ j < i, a.getD j 0 = b.getD j 0) ∧ a.getD i 0 < b.getD i 0 := by
  rw [padded_lt_iff]
  constructor
  · rintro ⟨i, heq, hlt⟩
    refine ⟨i, ?_, heq, hlt⟩
    by_contra hout
    rw [List.getD_eq_default b 0 (not_lt.mp hout)] at hlt
    exact Nat.not_lt_zero _ hlt
  · rintro ⟨i, -, heq, hlt⟩
    exact ⟨i, heq, hlt⟩

instance : Decidable (padded a < padded b) := decidable_of_iff _ padded_lt_iff_exists_lt.symm

/-- The first position at which something is found. -/
theorem findSome?_range_eq_some_iff {β : Type*} {f : ℕ → Option β} {n : ℕ} {r : β} :
    (List.range n).findSome? f = some r ↔ ∃ i < n, (∀ j < i, f j = none) ∧ f i = some r := by
  rw [List.findSome?_eq_some_iff]
  constructor
  · rintro ⟨before, i, after, heq, hfound, hnone⟩
    have hat : (List.range n)[before.length]? = some i := by
      rw [heq, List.getElem?_append_right le_rfl, Nat.sub_self]
      rfl
    obtain ⟨hlt, hi⟩ := List.getElem?_eq_some_iff.mp hat
    rw [List.getElem_range] at hi
    rw [List.length_range] at hlt
    have hbefore : before = List.range i := by
      have htake := congrArg (List.take before.length) heq
      rw [List.take_left, List.take_range, min_eq_left hlt.le, hi] at htake
      exact htake.symm
    refine ⟨i, hi ▸ hlt, fun j hj => hnone j ?_, hfound⟩
    rw [hbefore, List.mem_range]
    exact hj
  · rintro ⟨i, hlt, hnone, hfound⟩
    obtain ⟨k, rfl⟩ := Nat.exists_eq_add_of_lt hlt
    refine ⟨List.range i, i, (List.range k).map fun j => i + (j + 1), ?_, hfound, ?_⟩
    · rw [Nat.add_assoc, List.range_add, List.range_succ_eq_map, List.map_cons, List.map_map]
      rfl
    · exact fun j hj => hnone j (List.mem_range.mp hj)

end Wardex.Lib
