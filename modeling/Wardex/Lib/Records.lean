import Mathlib.Data.List.Basic
import Mathlib.Data.List.Flatten
import Mathlib.Data.List.Forall2

/-! A list of records of which the first that a predicate selects is changed in place, and lists
that evolve by such changes and by new records at the end. -/

namespace Wardex.Lib

variable {α β : Type*}

def updateFirst (p : α → Bool) (f : α → α) : List α → List α
  | [] => []
  | a :: as => if p a then f a :: as else a :: updateFirst p f as

variable {p : α → Bool} {f : α → α} {l : List α}

theorem updateFirst_cons (a : α) (as : List α) :
    updateFirst p f (a :: as) = if p a then f a :: as else a :: updateFirst p f as := rfl

theorem updateFirst_eq_self (h : l.find? p = none) : updateFirst p f l = l := by
  induction l with
  | nil => rfl
  | cons a l ih =>
    have ha : ¬ p a = true := by simpa using List.find?_eq_none.mp h a List.mem_cons_self
    rw [List.find?_cons_of_neg ha] at h
    rw [updateFirst_cons, if_neg ha, ih h]

/-- With distinct keys, the record with a key is the only one that changes. -/
theorem updateFirst_eq_map {κ : Type*} [DecidableEq κ] {key : α → κ} (h : (l.map key).Nodup)
    (k : κ) :
    updateFirst (fun a => key a = k) f l = l.map fun a => if key a = k then f a else a := by
  induction l with
  | nil => rfl
  | cons a l ih =>
    rw [List.map_cons, List.nodup_cons] at h
    rw [updateFirst_cons, List.map_cons]
    by_cases ha : key a = k
    · have hrest : ∀ b ∈ l, key b ≠ k := fun b hb hk =>
        h.1 (List.mem_map.mpr ⟨b, hb, hk.trans ha.symm⟩)
      rw [if_pos (decide_eq_true ha), if_pos ha,
        List.map_congr_left fun b hb => if_neg (hrest b hb), List.map_id']
    · rw [if_neg (by simpa using ha), if_neg ha, ih h.2]

theorem updateFirst_append (h : l.find? p = none) (l' : List α) :
    updateFirst p f (l ++ l') = l ++ updateFirst p f l' := by
  induction l with
  | nil => rfl
  | cons a l ih =>
    have ha : ¬ p a = true := by simpa using List.find?_eq_none.mp h a List.mem_cons_self
    rw [List.find?_cons_of_neg ha] at h
    rw [List.cons_append, updateFirst_cons, if_neg ha, ih h, List.cons_append]

theorem updateFirst_append_of_any (h : l.any p = true) (l' : List α) :
    updateFirst p f (l ++ l') = updateFirst p f l ++ l' := by
  induction l with
  | nil => exact absurd h (by simp)
  | cons a l ih =>
    rw [List.cons_append, updateFirst_cons, updateFirst_cons]
    split_ifs with ha
    · rfl
    · rw [List.any_cons, Bool.eq_false_iff.mpr ha, Bool.false_or] at h
      rw [ih h, List.cons_append]

theorem getElem?_updateFirst {i : ℕ} {b : α} (h : (updateFirst p f l)[i]? = some b) :
    l[i]? = some b ∨ ∃ a, l[i]? = some a ∧ l.find? p = some a ∧ b = f a := by
  induction l generalizing i with
  | nil => exact .inl h
  | cons a l ih =>
    rw [updateFirst_cons] at h
    split_ifs at h with ha
    · cases i with
      | zero => exact .inr ⟨a, rfl, List.find?_cons_of_pos ha, (Option.some.inj h).symm⟩
      | succ i => exact .inl h
    · rw [List.find?_cons_of_neg ha]
      cases i with
      | zero => exact .inl h
      | succ i => exact ih h

/-- The record that is updated is the first of its kind. -/
theorem exists_updateFirst_eq_set (h : l.any p = true) :
    ∃ i a, l[i]? = some a ∧ p a = true ∧ (∀ j < i, ∀ b, l[j]? = some b → p b = false) ∧
      updateFirst p f l = l.set i (f a) := by
  induction l with
  | nil => exact absurd h (by simp)
  | cons a l ih =>
    rw [updateFirst_cons]
    split_ifs with ha
    · exact ⟨0, a, rfl, ha, fun j hj => absurd hj (Nat.not_lt_zero j), rfl⟩
    · rw [List.any_cons, Bool.eq_false_iff.mpr ha, Bool.false_or] at h
      obtain ⟨i, b, hget, hb, hfirst, hset⟩ := ih h
      refine ⟨i + 1, b, hget, hb, fun j hj c hc => ?_, by rw [hset, List.set_cons_succ]⟩
      cases j with
      | zero => exact Option.some.inj hc ▸ Bool.eq_false_iff.mpr ha
      | succ j => exact hfirst j (Nat.lt_of_succ_lt_succ hj) c hc

/-- Where an update keeps what `q` selects, the first such record is as before, or it is the one
that was updated. -/
theorem find?_updateFirst_eq_some {q : α → Bool} {b : α}
    (hkeep : ∀ a, q a = true → q (f a) = true)
    (h : (updateFirst p f l).find? q = some b) :
    l.find? q = some b ∨
      ∃ a, l.find? p = some a ∧ b = f a ∧ (q a = true → l.find? q = some a) := by
  induction l with
  | nil => exact .inl h
  | cons a l ih =>
    rw [updateFirst_cons] at h
    split_ifs at h with ha
    · by_cases hqf : q (f a) = true
      · rw [List.find?_cons_of_pos hqf] at h
        exact .inr ⟨a, List.find?_cons_of_pos ha, (Option.some.inj h).symm,
          fun hq => List.find?_cons_of_pos hq⟩
      · rw [List.find?_cons_of_neg hqf] at h
        rw [List.find?_cons_of_neg fun hq => hqf (hkeep a hq)]
        exact .inl h
    · rw [List.find?_cons_of_neg ha]
      by_cases hq : q a = true
      · rw [List.find?_cons_of_pos hq] at h ⊢
        exact .inl h
      · rw [List.find?_cons_of_neg hq] at h ⊢
        exact ih h

theorem length_updateFirst : (updateFirst p f l).length = l.length := by
  induction l with
  | nil => rfl
  | cons a l ih =>
    rw [updateFirst_cons]
    split_ifs
    · rfl
    · rw [List.length_cons, ih, List.length_cons]

theorem mem_updateFirst {b : α} (h : b ∈ updateFirst p f l) :
    b ∈ l ∨ ∃ a, l.find? p = some a ∧ b = f a := by
  induction l with
  | nil => exact Or.inl h
  | cons a l ih =>
    rw [updateFirst_cons] at h
    split at h
    · next ha =>
      rcases List.mem_cons.mp h with hb | hb
      · exact Or.inr ⟨a, List.find?_cons_of_pos ha, hb⟩
      · exact Or.inl (List.mem_cons_of_mem a hb)
    · next ha =>
      rcases List.mem_cons.mp h with hb | hb
      · exact Or.inl (hb ▸ List.mem_cons_self)
      · rw [List.find?_cons_of_neg ha]
        exact (ih hb).imp_left (List.mem_cons_of_mem a)

theorem find?_updateFirst (hf : ∀ a, p a = true → p (f a) = true) :
    (updateFirst p f l).find? p = (l.find? p).map f := by
  induction l with
  | nil => rfl
  | cons a l ih =>
    rw [updateFirst_cons]
    split
    · next ha => rw [List.find?_cons_of_pos ha, List.find?_cons_of_pos (hf a ha), Option.map_some]
    · next ha => rw [List.find?_cons_of_neg ha, List.find?_cons_of_neg ha, ih]

theorem find?_updateFirst_other {q : α → Bool}
    (hf : ∀ a, p a = true → q a = false ∧ q (f a) = false) :
    (updateFirst p f l).find? q = l.find? q := by
  induction l with
  | nil => rfl
  | cons a l ih =>
    rw [updateFirst_cons]
    split
    · next ha =>
      obtain ⟨hq, hqf⟩ := hf a ha
      rw [List.find?_cons_of_neg (Bool.eq_false_iff.mp hq),
        List.find?_cons_of_neg (Bool.eq_false_iff.mp hqf)]
    · rw [List.find?_cons, List.find?_cons, ih]

theorem map_updateFirst {g : α → β} (hg : ∀ a, g (f a) = g a) :
    (updateFirst p f l).map g = l.map g := by
  induction l with
  | nil => rfl
  | cons a l ih =>
    rw [updateFirst_cons]
    split
    · rw [List.map_cons, List.map_cons, hg]
    · rw [List.map_cons, List.map_cons, ih]

/-- A change of the records goes through a map that takes it to a change of the images. -/
theorem map_updateFirst_comm {g : α → β} {q : β → Bool} {f' : β → β} (hpq : ∀ a, q (g a) = p a)
    (hf : ∀ a, g (f a) = f' (g a)) : (updateFirst p f l).map g = updateFirst q f' (l.map g) := by
  induction l with
  | nil => rfl
  | cons a l ih =>
    rw [updateFirst_cons, List.map_cons, updateFirst_cons, hpq]
    split_ifs
    · rw [List.map_cons, hf]
    · rw [List.map_cons, ih]

theorem updateFirst_updateFirst {g : α → α} (hf : ∀ a, p a = true → p (f a) = true) :
    updateFirst p g (updateFirst p f l) = updateFirst p (g ∘ f) l := by
  induction l with
  | nil => rfl
  | cons a l ih =>
    by_cases ha : p a = true
    · simp [updateFirst_cons, ha, hf]
    · simp [updateFirst_cons, ha, ih]

/-- Only what the change makes of the selected record matters. -/
theorem updateFirst_congr {g : α → α} {a : α} (ha : l.find? p = some a) (h : f a = g a) :
    updateFirst p f l = updateFirst p g l := by
  induction l with
  | nil => rfl
  | cons b l ih =>
    by_cases hb : p b = true
    · rw [List.find?_cons_of_pos hb] at ha
      cases ha
      rw [updateFirst_cons, updateFirst_cons, if_pos hb, if_pos hb, h]
    · rw [List.find?_cons_of_neg hb] at ha
      rw [updateFirst_cons, updateFirst_cons, if_neg hb, if_neg hb, ih ha]

/-- Two lists changed alike: what holds of the members at each place still holds. -/
theorem forall₂_updateFirst {R : α → β → Prop} {q : β → Bool} {g : β → β} {m : List β}
    (h : List.Forall₂ R l m) (hpq : ∀ a b, R a b → p a = q b)
    (hfg : ∀ a b, R a b → l.find? p = some a → R (f a) (g b)) :
    List.Forall₂ R (updateFirst p f l) (updateFirst q g m) := by
  induction h with
  | nil => exact .nil
  | @cons a b l m hab hlm ih =>
    rw [updateFirst_cons, updateFirst_cons, ← hpq a b hab]
    split_ifs with ha
    · exact .cons (hfg a b hab (List.find?_cons_of_pos ha)) hlm
    · refine .cons hab (ih fun a' b' hab' hfind => hfg a' b' hab' ?_)
      rw [List.find?_cons_of_neg ha, hfind]

/-- The selected record is changed at its place. -/
theorem exists_getElem?_updateFirst {a : α} (h : l.find? p = some a) :
    ∃ i : ℕ, l[i]? = some a ∧ (updateFirst p f l)[i]? = some (f a) := by
  induction l with
  | nil => exact absurd h (by simp)
  | cons b l ih =>
    rw [updateFirst_cons]
    by_cases hb : p b = true
    · rw [List.find?_cons_of_pos hb] at h
      rw [if_pos hb]
      exact ⟨0, h, congrArg (Option.map f) h⟩
    · rw [List.find?_cons_of_neg hb] at h
      rw [if_neg hb]
      obtain ⟨i, hi, hi'⟩ := ih h
      exact ⟨i + 1, hi, hi'⟩

/-- A member that the selected record gains is gained by all the records together. -/
theorem perm_flatMap_updateFirst {g : α → List β} {b : β} (h : l.any p = true)
    (hf : ∀ a, g (f a) = g a ++ [b]) :
    ((updateFirst p f l).flatMap g).Perm (l.flatMap g ++ [b]) := by
  induction l with
  | nil => exact absurd h (by simp)
  | cons a l ih =>
    rw [updateFirst_cons]
    split_ifs with ha
    · rw [List.flatMap_cons, List.flatMap_cons, hf, List.append_assoc, List.append_assoc]
      exact List.perm_append_comm.append_left (g a)
    · rw [List.any_cons, Bool.eq_false_iff.mpr ha, Bool.false_or] at h
      rw [List.flatMap_cons, List.flatMap_cons, List.append_assoc]
      exact (ih h).append_left (g a)

/-- Every record has its successor at the same place. -/
def Evolves (R : α → α → Prop) (l l' : List α) : Prop :=
  ∀ (i : ℕ) (a : α), l[i]? = some a → ∃ b, l'[i]? = some b ∧ R a b

variable {R : α → α → Prop} {l' l'' : List α}

theorem Evolves.refl (hR : ∀ a, R a a) (l : List α) : Evolves R l l :=
  fun _ a h => ⟨a, h, hR a⟩

theorem Evolves.trans (hR : ∀ a b c, R a b → R b c → R a c) (h : Evolves R l l')
    (h' : Evolves R l' l'') : Evolves R l l'' := by
  intro i a ha
  obtain ⟨b, hb, hab⟩ := h i a ha
  obtain ⟨c, hc, hbc⟩ := h' i b hb
  exact ⟨c, hc, hR a b c hab hbc⟩

theorem Evolves.append (h : Evolves R l l') (new : List α) : Evolves R l (l' ++ new) := by
  intro i a ha
  obtain ⟨b, hb, hab⟩ := h i a ha
  obtain ⟨hi, -⟩ := List.getElem?_eq_some_iff.mp hb
  exact ⟨b, (List.getElem?_append_left hi).trans hb, hab⟩

theorem evolves_map {g : α → α} (hg : ∀ a, R a (g a)) (l : List α) : Evolves R l (l.map g) := by
  intro i a ha
  exact ⟨g a, by rw [List.getElem?_map, ha, Option.map_some], hg a⟩

theorem evolves_updateFirst (hR : ∀ a, R a a) (hf : ∀ a, l.find? p = some a → R a (f a)) :
    Evolves R l (updateFirst p f l) := by
  induction l with
  | nil => exact Evolves.refl hR []
  | cons b l ih =>
    intro i a ha
    rw [updateFirst_cons]
    by_cases hb : p b = true
    · rw [if_pos hb]
      cases i with
      | zero =>
        obtain rfl : b = a := Option.some.inj ha
        exact ⟨f b, rfl, hf b (List.find?_cons_of_pos hb)⟩
      | succ i => exact ⟨a, ha, hR a⟩
    · rw [if_neg hb]
      rw [List.find?_cons_of_neg hb] at hf
      cases i with
      | zero => exact ⟨a, ha, hR a⟩
      | succ i => exact ih hf i a ha

end Wardex.Lib
