import Mathlib.Data.List.Nodup
import Mathlib.Data.List.Perm.Subperm
import Mathlib.Logic.Relation

/-! Items that record their parent, and the lists of children that are kept beside. The parents may
run in a circle.  A walk down keeps a stack and no record of where it was. -/

namespace Wardex.Lib

variable {α : Type*} {parent : α → Option α} {kids : α → List α}

/-- Every item is in the list of its parent, once, and in no other list. -/
structure ListsChildren (parent : α → Option α) (kids : α → List α) : Prop where
  mem : ∀ x y, y ∈ kids x ↔ parent y = some x
  nodup : ∀ x, (kids x).Nodup

def ChildLink (parent : α → Option α) (x y : α) : Prop := parent y = some x

/-- One or more links lead down from the first item to the second. -/
def Below (parent : α → Option α) : α → α → Prop := Relation.TransGen (ChildLink parent)

/-- The walk down: an item is taken from the stack and its children are put there. -/
def descend (kids : α → List α) : ℕ → List α → List α → Option (List α)
  | _, [], found => some found
  | 0, _ :: _, _ => none
  | fuel + 1, x :: stack, found => descend kids fuel ((kids x).reverse ++ stack) (found ++ kids x)

/-- A walk down from `root` that has taken the items of `done` from the stack. -/
structure Descended (parent : α → Option α) (root : α) (done stack found : List α) : Prop where
  perm : (done ++ stack).Perm (root :: found)
  nodup : (root :: found).Nodup
  mem : ∀ y, y ∈ found ↔ ∃ x ∈ done, parent y = some x
  below : ∀ y ∈ found, Below parent root y

/-- Each item is in the list of its parent once. -/
theorem ListsChildren.count [DecidableEq α] (h : ListsChildren parent kids) (x y : α) :
    (kids x).count y = if parent y = some x then 1 else 0 := by
  split_ifs with hparent
  · exact List.count_eq_one_of_mem (h.nodup x) ((h.mem x y).mpr hparent)
  · exact List.count_eq_zero_of_not_mem fun hy => hparent ((h.mem x y).mp hy)

section

variable {root x : α} {done stack found bound : List α}

theorem descended_nil (root : α) : Descended parent root [] [root] [] where
  perm := List.Perm.refl _
  nodup := List.nodup_singleton root
  mem y := by simp
  below y hy := absurd hy List.not_mem_nil

/-- An item on the stack is the root or below it. -/
theorem Descended.root_or_below (h : Descended parent root done stack found) (hx : x ∈ stack) :
    x = root ∨ Below parent root x := by
  have hmem : x ∈ root :: found := h.perm.subset (List.mem_append_right done hx)
  rcases List.mem_cons.mp hmem with rfl | hfound
  · exact .inl rfl
  · exact .inr (h.below x hfound)

theorem Descended.step (hkids : ListsChildren parent kids) (hroot : ¬ Below parent root root)
    (h : Descended parent root done (x :: stack) found) :
    Descended parent root (done ++ [x]) ((kids x).reverse ++ stack) (found ++ kids x) := by
  have hbelow : ∀ y ∈ kids x, Below parent root y := by
    intro y hy
    have hlink : ChildLink parent x y := (hkids.mem x y).mp hy
    rcases h.root_or_below List.mem_cons_self with rfl | hx
    · exact .single hlink
    · exact hx.tail hlink
  have hx : x ∉ done := by
    have hdone : (done ++ x :: stack).Nodup := h.perm.nodup_iff.mpr h.nodup
    exact fun hmem => (List.nodup_append.mp hdone).2.2 x hmem x List.mem_cons_self rfl
  -- a child of `x` has no other parent, so that it was not found before
  have hnew : ∀ y ∈ kids x, y ∉ root :: found := by
    intro y hy hmem
    rcases List.mem_cons.mp hmem with rfl | hfound
    · exact hroot (hbelow y hy)
    obtain ⟨z, hz, hparent⟩ := (h.mem y).mp hfound
    have hzx : z = x := Option.some.inj (hparent.symm.trans ((hkids.mem x y).mp hy))
    exact hx (hzx ▸ hz)
  refine ⟨?_, ?_, fun y => ?_, fun y hy => ?_⟩
  -- in whatever order, the children move from the lists to the stack and to what was found
  · have hstack : ((kids x).reverse ++ stack).Perm (stack ++ kids x) :=
      List.perm_append_comm.trans ((List.reverse_perm _).append_left stack)
    have hall : (done ++ [x] ++ (stack ++ kids x)).Perm (root :: found ++ kids x) := by
      simpa using h.perm.append_right (kids x)
    exact (hstack.append_left (done ++ [x])).trans hall
  · exact List.nodup_append.mpr ⟨h.nodup, hkids.nodup x, fun y hy z hz heq => hnew z hz (heq ▸ hy)⟩
  · rw [List.mem_append, h.mem y, hkids.mem x y]
    simp [or_and_right, exists_or]
  · rcases List.mem_append.mp hy with hy | hy
    · exact h.below y hy
    · exact hbelow y hy

/-- With an empty stack everything below the root has been found. -/
theorem Descended.mem_iff (h : Descended parent root done [] found) (y : α) :
    y ∈ found ↔ Below parent root y := by
  have hdone : ∀ x, x ∈ done ↔ x ∈ root :: found := by
    intro x
    have hperm := h.perm
    rw [List.append_nil] at hperm
    exact hperm.mem_iff
  refine ⟨h.below y, fun hbelow => ?_⟩
  induction hbelow with
  | single hlink => exact (h.mem _).mpr ⟨root, (hdone root).mpr List.mem_cons_self, hlink⟩
  | tail _ hlink ih =>
    exact (h.mem _).mpr ⟨_, (hdone _).mpr (List.mem_cons_of_mem root ih), hlink⟩

/-- A walk down that does not come back to its root ends: it takes no item twice. -/
theorem Descended.ends (hkids : ListsChildren parent kids) (hroot : ¬ Below parent root root)
    (hbound : ∀ y, (parent y).isSome → y ∈ bound) {fuel : ℕ}
    (h : Descended parent root done stack found) (hfuel : bound.length + 1 ≤ fuel + done.length) :
    ∃ found', descend kids fuel stack found = some found' ∧ found'.Nodup ∧
      ∀ y, y ∈ found' ↔ Below parent root y := by
  induction fuel generalizing done stack found with
  | zero =>
    cases stack with
    | nil => exact ⟨found, rfl, h.nodup.of_cons, h.mem_iff⟩
    | cons x stack =>
      -- what was taken from the stack is distinct and within the bound, so that fuel is left
      have hsubset : root :: found ⊆ root :: bound := by
        refine List.cons_subset_cons root fun y hy => ?_
        obtain ⟨z, -, hparent⟩ := (h.mem y).mp hy
        exact hbound y (Option.isSome_of_eq_some hparent)
      have hlength := (h.nodup.subperm hsubset).length_le
      have hperm := h.perm.length_eq
      simp only [List.length_append, List.length_cons] at hlength hperm
      omega
  | succ fuel ih =>
    cases stack with
    | nil => exact ⟨found, rfl, h.nodup.of_cons, h.mem_iff⟩
    | cons x stack =>
      refine ih (h.step hkids hroot) ?_
      rw [List.length_append, List.length_singleton]
      omega

/-- A walk down does not end once an item on its stack is below itself. -/
theorem descend_eq_none (hkids : ListsChildren parent kids) (hx : x ∈ stack)
    (hcycle : Below parent x x) (fuel : ℕ) (found : List α) :
    descend kids fuel stack found = none := by
  induction fuel generalizing x stack found with
  | zero =>
    cases stack with
    | nil => exact absurd hx List.not_mem_nil
    | cons => rfl
  | succ fuel ih =>
    cases stack with
    | nil => exact absurd hx List.not_mem_nil
    | cons y stack =>
      rcases List.mem_cons.mp hx with rfl | hx
      · -- the next item on the circle is a child of `x`
        obtain ⟨z, hlink, hback⟩ := Relation.TransGen.head'_iff.mp hcycle
        have hz : z ∈ kids x := (hkids.mem x z).mpr hlink
        refine ih (List.mem_append_left stack (List.mem_reverse.mpr hz)) ?_ _
        exact Relation.TransGen.tail' hback hlink
      · exact ih (List.mem_append_right _ hx) hcycle _

/-- The walk down finds each item below its root once, unless the root is below itself: then it
never ends. -/
theorem descend_iff (hkids : ListsChildren parent kids)
    (hbound : ∀ y, (parent y).isSome → y ∈ bound) (root : α) :
    (∃ fuel found, descend kids fuel [root] [] = some found ∧ found.Nodup ∧
      ∀ y, y ∈ found ↔ Below parent root y) ↔ ¬ Below parent root root := by
  constructor
  · rintro ⟨fuel, found, hfound, -⟩ hcycle
    rw [descend_eq_none hkids List.mem_cons_self hcycle] at hfound
    cases hfound
  · intro hroot
    exact ⟨bound.length + 1,
      (descended_nil root).ends hkids hroot hbound (Nat.le_refl (bound.length + 1))⟩

end

end Wardex.Lib
