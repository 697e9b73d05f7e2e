import Mathlib.Data.List.Basic
import Mathlib.Data.List.Induction
import Mathlib.Order.Basic
import Mathlib.Order.Lattice

/-! Tables ordered by their primary key: inserting a row whose key is taken fails and changes
nothing. -/

namespace Wardex.Lib

variable {κ α β : Type*} [LinearOrder κ]

def insertRow : List (κ × α) → κ → α → List (κ × α)
  | [], k, a => [(k, a)]
  | row :: rows, k, a =>
    if k < row.1 then (k, a) :: row :: rows
    else if k = row.1 then row :: rows
    else row :: insertRow rows k a

/-- The table that inserting the rows one after the other builds. -/
def tableOf (rows : List (κ × α)) : List (κ × α) :=
  rows.foldl (fun table row => insertRow table row.1 row.2) []

def KeySorted (table : List (κ × α)) : Prop := (table.map Prod.fst).Pairwise (· < ·)

instance (table : List (κ × α)) : Decidable (KeySorted table) :=
  inferInstanceAs (Decidable (List.Pairwise _ _))

variable {table rows : List (κ × α)} {row : κ × α} {k : κ} {a : α}

theorem subset_insertRow : insertRow table k a ⊆ (k, a) :: table := by
  induction table with
  | nil => exact List.Subset.refl _
  | cons row table ih =>
    rw [insertRow]
    split_ifs
    · exact List.Subset.refl _
    · exact List.subset_cons_self _ _
    · intro x hx
      rcases List.mem_cons.mp hx with rfl | hx
      · exact List.mem_cons_of_mem _ List.mem_cons_self
      · rcases List.mem_cons.mp (ih hx) with rfl | hx
        · exact List.mem_cons_self
        · exact List.mem_cons_of_mem _ (List.mem_cons_of_mem _ hx)

theorem KeySorted.insertRow (h : KeySorted table) (k : κ) (a : α) :
    KeySorted (insertRow table k a) := by
  induction table with
  | nil => exact List.pairwise_singleton _ _
  | cons row table ih =>
    obtain ⟨hrow, htable⟩ := List.pairwise_cons.mp h
    rw [Lib.insertRow]
    split_ifs with hlt heq
    · refine List.pairwise_cons.mpr ⟨fun l hl => ?_, h⟩
      rcases List.mem_cons.mp hl with rfl | hl
      · exact hlt
      · exact hlt.trans (hrow l hl)
    · exact h
    · refine List.pairwise_cons.mpr ⟨fun l hl => ?_, ih htable⟩
      obtain ⟨e, he, rfl⟩ := List.mem_map.mp hl
      rcases List.mem_cons.mp (subset_insertRow he) with rfl | he
      · exact lt_of_le_of_ne (not_lt.mp hlt) (Ne.symm heq)
      · exact hrow e.1 (List.mem_map_of_mem he)

/-- A row beyond the last key is put at the end. -/
theorem insertRow_of_lt (h : ∀ e ∈ table, e.1 < k) : insertRow table k a = table ++ [(k, a)] := by
  induction table with
  | nil => rfl
  | cons row table ih =>
    have hlt : row.1 < k := h row List.mem_cons_self
    rw [insertRow, if_neg hlt.asymm, if_neg hlt.ne', ih fun e he => h e (List.mem_cons_of_mem _ he),
      List.cons_append]

theorem keySorted_tableOf (rows : List (κ × α)) : KeySorted (tableOf rows) := by
  have hfold (table : List (κ × α)) (h : KeySorted table) :
      KeySorted (rows.foldl (fun table row => insertRow table row.1 row.2) table) := by
    induction rows generalizing table with
    | nil => exact h
    | cons row rows ih => exact ih _ (h.insertRow row.1 row.2)
  exact hfold [] List.Pairwise.nil

theorem tableOf_subset (rows : List (κ × α)) : tableOf rows ⊆ rows := by
  have hfold (table : List (κ × α)) :
      rows.foldl (fun table row => insertRow table row.1 row.2) table ⊆ table ++ rows := by
    induction rows generalizing table with
    | nil => exact fun e he => List.mem_append_left _ he
    | cons row rows ih =>
      intro e he
      rcases List.mem_append.mp (ih _ he) with he | he
      · rcases List.mem_cons.mp (subset_insertRow he) with rfl | he
        · exact List.mem_append_right _ List.mem_cons_self
        · exact List.mem_append_left _ he
      · exact List.mem_append_right _ (List.mem_cons_of_mem _ he)
  exact hfold []

theorem length_insertRow_le (table : List (κ × α)) (k : κ) (a : α) :
    (insertRow table k a).length ≤ table.length + 1 := by
  induction table with
  | nil => exact Nat.le_refl _
  | cons row table ih =>
    rw [insertRow]
    split_ifs
    · exact Nat.le_refl _
    · exact Nat.le_succ _
    · exact Nat.succ_le_succ ih

theorem length_tableOf_le (rows : List (κ × α)) : (tableOf rows).length ≤ rows.length := by
  induction rows using List.reverseRecOn with
  | nil => exact Nat.le_refl _
  | append_singleton rows row ih =>
    rw [tableOf, List.foldl_append, List.foldl_cons, List.foldl_nil, ← tableOf,
      List.length_append, List.length_singleton]
    exact Nat.le_trans (length_insertRow_le _ _ _) (Nat.succ_le_succ ih)

/-- Rows that come in the order of their keys are the table. -/
theorem tableOf_eq_self (h : KeySorted rows) : tableOf rows = rows := by
  induction rows using List.reverseRecOn with
  | nil => rfl
  | append_singleton rows row ih =>
    rw [KeySorted, List.map_append, List.pairwise_append] at h
    have hlt : ∀ e ∈ rows, e.1 < row.1 := fun e he =>
      h.2.2 e.1 (List.mem_map_of_mem he) row.1 (List.mem_singleton_self _)
    rw [tableOf, List.foldl_append, List.foldl_cons, List.foldl_nil, ← tableOf, ih h.1,
      insertRow_of_lt hlt]

/-! ## Reading the values back -/

variable {encode : β → α} {decode : α → Option β} {key : β → κ} {values : List β}

/-- The values of a table are the ones that were written if and only if these came in the order of
their keys and each is read back. -/
theorem filterMap_tableOf_eq_self (hkey : ∀ b c, decode (encode b) = some c → key c = key b) :
    (tableOf (values.map fun b => (key b, encode b))).filterMap (fun row => decode row.2) =
        values ↔
      (values.map key).Pairwise (· < ·) ∧ ∀ b ∈ values, decode (encode b) = some b := by
  have hsorted_iff : KeySorted (values.map fun b => (key b, encode b)) ↔
      (values.map key).Pairwise (· < ·) := by
    rw [KeySorted, List.map_map]
    rfl
  constructor
  · intro h
    have hkeys (table : List (κ × α)) (hsub : table ⊆ values.map fun b => (key b, encode b)) :
        ((table.filterMap fun row => decode row.2).map key).Sublist (table.map Prod.fst) := by
      induction table with
      | nil => exact List.Sublist.refl _
      | cons row table ih =>
        have htail := ih (List.Subset.trans (List.subset_cons_self _ _) hsub)
        obtain ⟨b, -, rfl⟩ := List.mem_map.mp (hsub List.mem_cons_self)
        rw [List.filterMap_cons]
        cases hdecode : decode (encode b) with
        | none => exact htail.cons _
        | some c =>
          rw [List.map_cons, List.map_cons, hkey b c hdecode]
          exact htail.cons_cons _
    have hsorted : (values.map key).Pairwise (· < ·) := by
      have hsub := hkeys _ (tableOf_subset (values.map fun b => (key b, encode b)))
      rw [h] at hsub
      exact (keySorted_tableOf _).sublist hsub
    rw [tableOf_eq_self (hsorted_iff.mpr hsorted), List.filterMap_map] at h
    exact ⟨hsorted, List.filterMap_eq_map_iff_forall_eq_some.mp (h.trans values.map_id.symm)⟩
  · rintro ⟨hsorted, hread⟩
    rw [tableOf_eq_self (hsorted_iff.mpr hsorted), List.filterMap_map]
    exact (List.filterMap_eq_map_iff_forall_eq_some.mpr hread).trans values.map_id

end Wardex.Lib
