import Mathlib.Data.List.Basic

/-! Fields joined by a separator.  The joined text determines two fields once it is known how many
separators the first field has, and a text without the separator lies within one field. -/

namespace Wardex.Lib

variable {α : Type*} [DecidableEq α] {sep : α}

theorem fields_unique {a a' b b' : List α} (h : a ++ sep :: b = a' ++ sep :: b')
    (hcount : a.count sep = a'.count sep) : a = a' ∧ b = b' := by
  induction a generalizing a' with
  | nil =>
    cases a' with
    | nil => exact ⟨rfl, (List.cons.inj h).2⟩
    | cons x a' =>
      obtain rfl : sep = x := (List.cons.inj h).1
      simp at hcount
  | cons x a ih =>
    cases a' with
    | nil =>
      obtain rfl : x = sep := (List.cons.inj h).1
      simp at hcount
    | cons y a' =>
      obtain ⟨rfl, hrest⟩ := List.cons.inj h
      obtain ⟨rfl, rfl⟩ := ih hrest (by simpa [List.count_cons] using hcount)
      exact ⟨rfl, rfl⟩

/-- A first field without separators ends at the first one. -/
theorem fields_unique_of_not_mem {a a' b b' : List α} (h : a ++ sep :: b = a' ++ sep :: b')
    (ha : sep ∉ a) (ha' : sep ∉ a') : a = a' ∧ b = b' :=
  fields_unique h (by rw [List.count_eq_zero_of_not_mem ha, List.count_eq_zero_of_not_mem ha'])

omit [DecidableEq α] in
theorem prefix_of_not_mem {p a b : List α} (hp : sep ∉ p) (h : p <+: a ++ sep :: b) : p <+: a := by
  induction a generalizing p with
  | nil =>
    cases p with
    | nil => exact List.nil_prefix
    | cons x p => exact absurd ((List.cons_prefix_cons.mp h).1 ▸ List.mem_cons_self) hp
  | cons x a ih =>
    cases p with
    | nil => exact List.nil_prefix
    | cons y p =>
      obtain ⟨rfl, hrest⟩ := List.cons_prefix_cons.mp h
      exact List.cons_prefix_cons.mpr ⟨rfl, ih (fun hmem => hp (List.mem_cons_of_mem _ hmem)) hrest⟩

omit [DecidableEq α] in
/-- A text without the separator lies on one side of it. -/
theorem infix_of_not_mem {p a b : List α} (hp : sep ∉ p) (h : p <:+: a ++ sep :: b) :
    p <:+: a ∨ p <:+: b := by
  induction a with
  | nil =>
    obtain hprefix | hinfix := List.infix_cons_iff.mp h
    · exact .inl (prefix_of_not_mem (a := []) hp hprefix).isInfix
    · exact .inr hinfix
  | cons x a ih =>
    obtain hprefix | hinfix := List.infix_cons_iff.mp h
    · exact .inl (prefix_of_not_mem (a := x :: a) hp hprefix).isInfix
    · exact (ih hinfix).imp_left List.infix_cons

/-! ### Lists cut at a separator -/

theorem not_mem_of_mem_splitOn {c : α} {text piece : List α} (h : piece ∈ text.splitOn c) :
    c ∉ piece := by
  induction text generalizing piece with
  | nil =>
    rw [List.splitOn_nil, List.mem_singleton] at h
    rw [h]
    exact List.not_mem_nil
  | cons d text ih =>
    rw [List.splitOn_cons_eq_if_modifyHead] at h
    split at h
    · rcases List.mem_cons.mp h with rfl | h
      · exact List.not_mem_nil
      · exact ih h
    · next hd =>
      have hne : c ≠ d := fun heq => hd (beq_iff_eq.mpr heq.symm)
      cases hpieces : text.splitOn c with
      | nil => exact absurd hpieces (List.splitOn_ne_nil c text)
      | cons first rest =>
        rw [hpieces, List.modifyHead_cons] at h
        rcases List.mem_cons.mp h with rfl | h
        · have hfirst : c ∉ first := ih (hpieces ▸ List.mem_cons_self)
          exact List.not_mem_cons_of_ne_of_not_mem hne hfirst
        · exact ih (hpieces ▸ List.mem_cons_of_mem _ h)

/-- There is one piece more than separators. -/
theorem length_splitOn (sep : α) (l : List α) : (l.splitOn sep).length = l.count sep + 1 := by
  induction l with
  | nil => rfl
  | cons a l ih =>
    rw [List.splitOn_cons_eq_if_modifyHead]
    split_ifs with ha
    · rw [beq_iff_eq.mp ha, List.length_cons, ih, List.count_cons_self]
    · have hne : a ≠ sep := fun heq => ha (beq_iff_eq.mpr heq)
      rw [List.length_modifyHead, ih, List.count_cons_of_ne hne]

theorem splitOn_flatMap {fields : List (List α)} (h : ∀ f ∈ fields, sep ∉ f) (rest : List α) :
    ((fields.flatMap fun f => f ++ [sep]) ++ rest).splitOn sep = fields ++ rest.splitOn sep := by
  induction fields with
  | nil => rfl
  | cons f fields ih =>
    rw [List.flatMap_cons, List.append_assoc, List.append_assoc, List.singleton_append,
      List.splitOn_append_cons_self_of_not_mem (h f List.mem_cons_self),
      ih fun g hg => h g (List.mem_cons_of_mem f hg), List.cons_append]

omit [DecidableEq α] in
theorem intercalate_append_of_ne_nil (fields : List (List α)) {pieces : List (List α)}
    (h : pieces ≠ []) : [sep].intercalate (fields ++ pieces) =
      (fields.flatMap fun f => f ++ [sep]) ++ [sep].intercalate pieces := by
  induction fields with
  | nil => rfl
  | cons f fields ih =>
    have hne : fields ++ pieces ≠ [] := by simp [h]
    rw [List.cons_append, List.intercalate_cons_of_ne_nil hne, ih, List.flatMap_cons,
      List.append_assoc, List.append_assoc, List.append_assoc]

/-- The last piece is what stands behind the last separator. -/
theorem eq_of_splitOn_concat {l last : List α} {pieces : List (List α)}
    (h : l.splitOn sep = pieces ++ [last]) :
    l = (pieces.flatMap fun p => p ++ [sep]) ++ last := by
  have hjoined : [sep].intercalate (l.splitOn sep) = l := List.intercalate_splitOn sep
  rw [h, intercalate_append_of_ne_nil pieces (List.cons_ne_nil last []),
    List.intercalate_singleton] at hjoined
  exact hjoined.symm

/-- The first `n` fields, each ended by the separator, and what follows them. -/
def takeFields (sep : α) (n : ℕ) (l : List α) : Option (List (List α) × List α) :=
  let pieces := l.splitOn sep
  if n < pieces.length then some (pieces.take n, [sep].intercalate (pieces.drop n)) else none

theorem takeFields_eq_some {n : ℕ} {l : List α} {fields : List (List α)} {rest : List α} :
    takeFields sep n l = some (fields, rest) ↔
      fields.length = n ∧ (∀ f ∈ fields, sep ∉ f) ∧
        l = (fields.flatMap fun f => f ++ [sep]) ++ rest := by
  unfold takeFields
  constructor
  · intro h
    simp only [Option.ite_none_right_eq_some, Option.some.injEq, Prod.mk.injEq] at h
    obtain ⟨hlength, rfl, rfl⟩ := h
    have hdrop : (l.splitOn sep).drop n ≠ [] := by
      rw [ne_eq, List.drop_eq_nil_iff]
      omega
    refine ⟨List.length_take_of_le (Nat.le_of_lt hlength), ?_, ?_⟩
    · exact fun f hf => not_mem_of_mem_splitOn (List.mem_of_mem_take hf)
    · rw [← intercalate_append_of_ne_nil _ hdrop, List.take_append_drop, List.intercalate_splitOn]
  · rintro ⟨rfl, hfields, rfl⟩
    have hpos := List.length_pos_of_ne_nil (List.splitOn_ne_nil sep rest)
    rw [splitOn_flatMap hfields, if_pos (by rw [List.length_append]; omega), List.take_left,
      List.drop_left, List.intercalate_splitOn]

/-- Fields that are known to come first. -/
theorem takeFields_flatMap {first : List (List α)} (h : ∀ f ∈ first, sep ∉ f) (n : ℕ)
    (l : List α) :
    takeFields sep (first.length + n) ((first.flatMap fun f => f ++ [sep]) ++ l) =
      (takeFields sep n l).map fun p => (first ++ p.1, p.2) := by
  simp only [takeFields, splitOn_flatMap h, List.length_append, List.take_length_add_append,
    List.drop_length_add_append]
  by_cases hn : n < (l.splitOn sep).length
  · rw [if_pos hn, if_pos (Nat.add_lt_add_left hn _), Option.map_some]
  · rw [if_neg hn, if_neg (by omega), Option.map_none]

theorem splitOn_intercalate_eq_flatMap {pieces : List (List α)} (hne : pieces ≠ []) :
    ([sep].intercalate pieces).splitOn sep = pieces.flatMap fun p => p.splitOn sep := by
  induction pieces with
  | nil => exact absurd rfl hne
  | cons p pieces ih =>
    cases pieces with
    | nil => rw [List.intercalate_singleton, List.flatMap_cons, List.flatMap_nil, List.append_nil]
    | cons q pieces =>
      rw [List.intercalate_cons_cons, List.append_assoc, List.singleton_append,
        List.splitOn_append_cons_self, ih (List.cons_ne_nil q pieces)]
      rfl

theorem length_le_length_flatMap_splitOn (sep : α) (pieces : List (List α)) :
    pieces.length ≤ (pieces.flatMap fun p => p.splitOn sep).length := by
  induction pieces with
  | nil => exact Nat.le_refl 0
  | cons p pieces ih =>
    rw [List.flatMap_cons, List.length_append, length_splitOn, List.length_cons]
    omega

theorem length_flatMap_splitOn_iff {pieces : List (List α)} :
    (pieces.flatMap fun p => p.splitOn sep).length = pieces.length ↔ ∀ p ∈ pieces, sep ∉ p := by
  induction pieces with
  | nil => simp
  | cons p pieces ih =>
    have hpieces := length_le_length_flatMap_splitOn sep pieces
    rw [List.forall_mem_cons]
    refine Iff.trans ?_ (and_congr_right fun _ => ih)
    rw [List.flatMap_cons, List.length_append, length_splitOn, List.length_cons,
      ← List.count_eq_zero]
    omega

/-- Joined pieces are cut into as many pieces again only if no piece has the separator. -/
theorem length_splitOn_intercalate_iff {pieces : List (List α)} (hne : pieces ≠ []) :
    (([sep].intercalate pieces).splitOn sep).length = pieces.length ↔ ∀ p ∈ pieces, sep ∉ p := by
  rw [splitOn_intercalate_eq_flatMap hne, length_flatMap_splitOn_iff]

theorem splitOn_flatMap_append (written : List (List α)) (rest : List α) :
    ((written.flatMap fun f => f ++ [sep]) ++ rest).splitOn sep =
      (written.flatMap fun f => f.splitOn sep) ++ rest.splitOn sep := by
  induction written with
  | nil => rfl
  | cons f written ih =>
    rw [List.flatMap_cons, List.flatMap_cons, List.append_assoc, List.append_assoc,
      List.singleton_append, List.splitOn_append_cons_self, ih, List.append_assoc]

/-- As many fields as were written are read: either no written field has the separator, or what is
read behind the fields begins within the written ones. -/
theorem written_or_earlier {fields written : List (List α)} {rest behind : List α}
    (hlength : fields.length = written.length) (hfields : ∀ f ∈ fields, sep ∉ f)
    (h : (fields.flatMap fun f => f ++ [sep]) ++ rest =
      (written.flatMap fun f => f ++ [sep]) ++ behind) :
    (∀ f ∈ written, sep ∉ f) ∨ ∃ d, rest = d ++ sep :: behind := by
  have hpieces := congrArg (List.splitOn sep) h
  rw [splitOn_flatMap hfields, splitOn_flatMap_append] at hpieces
  have hle := length_le_length_flatMap_splitOn sep written
  rcases List.append_eq_append_iff.mp hpieces with ⟨more, hmore, hrest⟩ | ⟨more, hmore, -⟩
  · rcases List.eq_nil_or_concat more with rfl | ⟨init, last, rfl⟩
    · rw [List.append_nil] at hmore
      exact Or.inl (length_flatMap_splitOn_iff.mp (by rw [hmore, hlength]))
    · refine Or.inr ⟨(init.flatMap fun p => p ++ [sep]) ++ last, ?_⟩
      have hjoined : [sep].intercalate (rest.splitOn sep) = rest := List.intercalate_splitOn sep
      rw [hrest, intercalate_append_of_ne_nil _ (List.splitOn_ne_nil sep behind),
        List.intercalate_splitOn, List.concat_eq_append, List.flatMap_append,
        List.flatMap_singleton] at hjoined
      rw [← hjoined]
      simp
  · have hnil : (written.flatMap fun f => f.splitOn sep).length = written.length := by
      have hlengths := congrArg List.length hmore
      rw [List.length_append] at hlengths
      omega
    exact Or.inl (length_flatMap_splitOn_iff.mp hnil)

omit [DecidableEq α] in
theorem intercalate_concat {pieces : List (List α)} (h : pieces ≠ []) (p : List α) :
    [sep].intercalate (pieces ++ [p]) = [sep].intercalate pieces ++ sep :: p := by
  induction pieces with
  | nil => exact absurd rfl h
  | cons q pieces ih =>
    cases pieces with
    | nil => simp [List.intercalate_cons_cons]
    | cons r pieces =>
      rw [List.cons_append, List.cons_append, List.intercalate_cons_cons, ← List.cons_append,
        ih (List.cons_ne_nil r pieces), List.intercalate_cons_cons, List.append_assoc,
        List.append_assoc, List.append_assoc]

/-- What stands before and after the last separator. -/
def splitLast (sep : α) (l : List α) : Option (List α × List α) :=
  match (l.splitOn sep).reverse with
  | last :: first :: before => some ([sep].intercalate (first :: before).reverse, last)
  | _ => none

theorem splitLast_eq_some {l before last : List α} :
    splitLast sep l = some (before, last) ↔ l = before ++ sep :: last ∧ sep ∉ last := by
  unfold splitLast
  constructor
  · intro h
    split at h
    · next p q ps hpieces =>
      obtain ⟨rfl, rfl⟩ := Prod.mk.inj (Option.some.inj h)
      have hsplit : l.splitOn sep = (q :: ps).reverse ++ [p] := by
        rw [← List.reverse_reverse (l.splitOn sep), hpieces, List.reverse_cons]
      refine ⟨?_, not_mem_of_mem_splitOn (hsplit ▸ List.mem_append_right _ List.mem_cons_self)⟩
      rw [← intercalate_concat (by simp), ← hsplit, List.intercalate_splitOn]
    · exact absurd h (by simp)
  · rintro ⟨rfl, hlast⟩
    rw [List.splitOn_append_cons_self, List.splitOn_eq_singleton hlast, List.reverse_append,
      List.reverse_singleton, List.singleton_append]
    obtain ⟨q, ps, hps⟩ := List.exists_cons_of_ne_nil
      (fun hnil => List.splitOn_ne_nil sep before (List.reverse_eq_nil_iff.mp hnil))
    rw [hps]
    show some ([sep].intercalate (q :: ps).reverse, last) = some (before, last)
    rw [← hps, List.reverse_reverse, List.intercalate_splitOn]

end Wardex.Lib
