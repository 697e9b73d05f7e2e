import Mathlib.Data.List.Basic

/-! Lists that record what happened: visits in the order of a given list, with the last visit split
off, and things that happen to the members of a numbered family, each entry tagged with the number
of the member it happens to. -/

namespace Wardex.Lib

section

variable {α : Type*}

/-- No item of `items` is visited before those that precede it there. -/
def InOrder [DecidableEq α] (items visits : List α) : Prop :=
  ∀ u x v, visits = u ++ x :: v → x ∈ items → ∀ y ∈ items.takeWhile (· ≠ x), y ∈ u

theorem snoc_eq_append_cons {l pre post : List α} {x c : α} :
    l ++ [x] = pre ++ c :: post ↔
      (∃ post', post = post' ++ [x] ∧ l = pre ++ c :: post') ∨
        (post = [] ∧ c = x ∧ pre = l) := by
  constructor
  · intro h
    rcases List.eq_nil_or_concat post with rfl | ⟨post', y, rfl⟩
    · obtain ⟨hl, hx⟩ := List.append_inj' h rfl
      exact Or.inr ⟨rfl, (List.cons.inj hx).1.symm, hl.symm⟩
    · rw [List.concat_eq_append, ← List.cons_append, ← List.append_assoc] at h
      obtain ⟨hl, hx⟩ := List.append_inj' h rfl
      obtain rfl := (List.cons.inj hx).1
      exact Or.inl ⟨post', List.concat_eq_append, hl⟩
  · rintro (⟨post', rfl, rfl⟩ | ⟨rfl, rfl, rfl⟩)
    · simp
    · rfl

variable [DecidableEq α]

theorem inOrder_nil (items : List α) : InOrder items [] := by
  intro u x v h
  simp at h

theorem inOrder_snoc {items visits : List α} {x : α} :
    InOrder items (visits ++ [x]) ↔ InOrder items visits ∧
      (x ∈ items → ∀ y ∈ items.takeWhile (· ≠ x), y ∈ visits) := by
  constructor
  · intro h
    refine ⟨fun u y v huv => h u y (v ++ [x]) ?_, h visits x [] rfl⟩
    rw [huv, List.append_assoc, List.cons_append]
  · rintro ⟨hold, hlast⟩ u y v huv hy
    rcases snoc_eq_append_cons.mp huv with ⟨v', _, hv⟩ | ⟨_, rfl, rfl⟩
    · exact hold u y v' hv hy
    · exact hlast hy

end

/-! ## Tagged entries -/

variable {α β : Type*}

/-- What happened to member `i`, in order. -/
def atTag (i : ℕ) (t : List (ℕ × β)) : List β :=
  t.filterMap fun p => if p.1 = i then some p.2 else none

/-- One turn over a whole family, in which `f a` happens to the member `a`. -/
def tagged (f : α → List β) (l : List α) (k : ℕ) : List (ℕ × β) :=
  (l.zipIdx k).flatMap fun p => (f p.1).map (Prod.mk p.2)

@[simp] theorem atTag_append (i : ℕ) (s t : List (ℕ × β)) :
    atTag i (s ++ t) = atTag i s ++ atTag i t := List.filterMap_append ..

theorem atTag_map_self (i : ℕ) (l : List β) : atTag i (l.map (Prod.mk i)) = l := by
  induction l with
  | nil => rfl
  | cons b l ih => simp [atTag]

theorem atTag_map_ne {i j : ℕ} (h : j ≠ i) (l : List β) : atTag i (l.map (Prod.mk j)) = [] := by
  simp [atTag, h]

theorem atTag_tagged_of_lt (f : α → List β) (l : List α) {i k : ℕ} (h : i < k) :
    atTag i (tagged f l k) = [] := by
  induction l generalizing k with
  | nil => rfl
  | cons a l ih =>
    rw [tagged, List.zipIdx_cons, List.flatMap_cons, atTag_append, atTag_map_ne (Nat.ne_of_gt h)]
    exact ih (Nat.lt_succ_of_lt h)

theorem atTag_tagged (f : α → List β) (l : List α) (i k : ℕ) :
    atTag (k + i) (tagged f l k) = (l[i]?).elim [] f := by
  induction l generalizing i k with
  | nil => rfl
  | cons a l ih =>
    rw [tagged, List.zipIdx_cons, List.flatMap_cons, atTag_append]
    change _ ++ atTag (k + i) (tagged f l (k + 1)) = _
    cases i with
    | zero =>
      rw [Nat.add_zero, atTag_tagged_of_lt f l (Nat.lt_succ_self k)]
      exact (List.append_nil _).trans (atTag_map_self k _)
    | succ i =>
      rw [atTag_map_ne (Nat.ne_of_lt (by omega)), ← Nat.add_assoc, Nat.add_right_comm, ih]
      rfl

end Wardex.Lib
