import Mathlib.Data.List.Perm.Basic
import Mathlib.Data.List.Nodup
import Wardex.Lib.Records

/-! Maps as lists of entries in the order of their keys. -/

namespace Wardex.Lib

variable {K α : Type} [LT K] [DecidableLT K] [DecidableEq K]

def insertKey : List (K × α) → K → α → List (K × α)
  | [], k, v => [(k, v)]
  | e :: m, k, v =>
    if k < e.1 then (k, v) :: e :: m
    else if k = e.1 then (k, v) :: m
    else e :: insertKey m k v

/-- The map that inserting the entries one after the other builds. -/
def ofEntries (entries : List (K × α)) : List (K × α) :=
  entries.foldl (fun m e => insertKey m e.1 e.2) []

theorem insertKey_perm {m : List (K × α)} {k : K} (h : k ∉ m.map Prod.fst) (v : α) :
    (insertKey m k v).Perm ((k, v) :: m) := by
  induction m with
  | nil => exact List.Perm.refl _
  | cons e m ih =>
    have hk : k ≠ e.1 := List.ne_of_not_mem_cons h
    rw [insertKey, if_neg hk]
    split
    · exact List.Perm.refl _
    · exact ((ih (List.not_mem_of_not_mem_cons h)).cons e).trans (List.Perm.swap (k, v) e m)

theorem foldl_insertKey_perm {entries m : List (K × α)}
    (h : ((entries ++ m).map Prod.fst).Nodup) :
    (entries.foldl (fun m e => insertKey m e.1 e.2) m).Perm (entries ++ m) := by
  induction entries generalizing m with
  | nil => exact List.Perm.refl _
  | cons e entries ih =>
    have hfresh : e.1 ∉ m.map Prod.fst := by
      intro hmem
      have hnot : e.1 ∉ (entries ++ m).map Prod.fst := (List.nodup_cons.mp h).1
      rw [List.map_append, List.mem_append] at hnot
      exact hnot (Or.inr hmem)
    have hstep : (entries ++ insertKey m e.1 e.2).Perm (e :: (entries ++ m)) :=
      ((insertKey_perm hfresh e.2).append_left entries).trans List.perm_middle
    have hnodup : ((entries ++ insertKey m e.1 e.2).map Prod.fst).Nodup :=
      (hstep.map Prod.fst).nodup_iff.mpr h
    exact (ih hnodup).trans hstep

theorem ofEntries_perm {entries : List (K × α)} (h : (entries.map Prod.fst).Nodup) :
    (ofEntries entries).Perm entries := by
  have hkeys : ((entries ++ []).map Prod.fst).Nodup := by rwa [List.append_nil]
  have hperm := foldl_insertKey_perm hkeys
  rwa [List.append_nil] at hperm

omit [LT K] [DecidableLT K] in
theorem lookup_eq_some {m : List (K × α)} (hkeys : (m.map Prod.fst).Nodup) {k : K} {v : α}
    (h : (k, v) ∈ m) : m.lookup k = some v := by
  induction m with
  | nil => cases h
  | cons e m ih =>
    obtain ⟨hfresh, hrest⟩ := List.nodup_cons.mp hkeys
    rcases List.mem_cons.mp h with rfl | hmem
    · exact List.lookup_cons_self
    · have hne : k ≠ e.1 := fun heq => hfresh (heq ▸ List.mem_map_of_mem hmem)
      rw [List.lookup_cons, beq_false_of_ne hne]
      exact ih hrest hmem

theorem lookup_insertKey_self (m : List (K × α)) (k : K) (v : α) :
    (insertKey m k v).lookup k = some v := by
  induction m with
  | nil => exact List.lookup_cons_self
  | cons e m ih =>
    rw [insertKey]
    split
    · exact List.lookup_cons_self
    · split
      · exact List.lookup_cons_self
      · next hne =>
        rw [List.lookup_cons, beq_false_of_ne hne]
        exact ih

theorem lookup_insertKey_other {k l : K} (h : l ≠ k) (m : List (K × α)) (v : α) :
    (insertKey m k v).lookup l = m.lookup l := by
  induction m with
  | nil => rw [insertKey, List.lookup_cons, beq_false_of_ne h]
  | cons e m ih =>
    rw [insertKey]
    split
    · rw [List.lookup_cons, beq_false_of_ne h]
    · split
      · next heq =>
        rw [List.lookup_cons, beq_false_of_ne h, List.lookup_cons, beq_false_of_ne (heq ▸ h)]
      · rw [List.lookup_cons, List.lookup_cons, ih]

omit [LT K] [DecidableLT K] in
/-- All values of a map changed. -/
theorem lookup_map_value (m : List (K × α)) (f : α → α) (k : K) :
    (m.map fun e => (e.1, f e.2)).lookup k = (m.lookup k).map f := by
  induction m with
  | nil => rfl
  | cons e m ih =>
    rw [List.map_cons, List.lookup_cons, List.lookup_cons, ih]
    cases k == e.1 <;> rfl

omit [LT K] [DecidableLT K] in
theorem lookup_updateFirst_self (m : List (K × α)) (f : α → α) (k : K) :
    (updateFirst (fun e => e.1 = k) (fun e => (e.1, f e.2)) m).lookup k = (m.lookup k).map f := by
  induction m with
  | nil => rfl
  | cons e m ih =>
    rw [updateFirst]
    by_cases h : e.1 = k
    · rw [if_pos (decide_eq_true h), ← h, List.lookup_cons_self, List.lookup_cons_self]
      rfl
    · have hne : (k == e.1) = false := beq_false_of_ne (Ne.symm h)
      rw [if_neg (by simpa using h), List.lookup_cons, List.lookup_cons, hne, ih]

omit [LT K] [DecidableLT K] in
theorem lookup_updateFirst_other {k l : K} (h : l ≠ k) (m : List (K × α)) (f : α → α) :
    (updateFirst (fun e => e.1 = k) (fun e => (e.1, f e.2)) m).lookup l = m.lookup l := by
  induction m with
  | nil => rfl
  | cons e m ih =>
    rw [updateFirst]
    split_ifs with hk
    · have hne : (l == e.1) = false := beq_false_of_ne (of_decide_eq_true hk ▸ h)
      rw [List.lookup_cons, List.lookup_cons, hne]
    · rw [List.lookup_cons, List.lookup_cons, ih]

theorem insertKey_insertKey (hirrefl : ∀ k : K, ¬k < k) (m : List (K × α)) (k : K) (v w : α) :
    insertKey (insertKey m k v) k w = insertKey m k w := by
  have hself : ∀ rest : List (K × α), insertKey ((k, v) :: rest) k w = (k, w) :: rest := by
    intro rest
    rw [insertKey, if_neg (hirrefl k), if_pos rfl]
  induction m with
  | nil => exact hself []
  | cons e m ih =>
    by_cases hlt : k < e.1
    · rw [insertKey, if_pos hlt, hself, insertKey, if_pos hlt]
    · by_cases heq : k = e.1
      · rw [insertKey, if_neg hlt, if_pos heq, hself, insertKey, if_neg hlt, if_pos heq]
      · rw [insertKey, if_neg hlt, if_neg heq, insertKey, if_neg hlt, if_neg heq, ih, insertKey,
          if_neg hlt, if_neg heq]

end Wardex.Lib
