import Mathlib.Data.List.Infix
import Mathlib.Tactic.Linarith
import Mathlib.Tactic.Ring

/-! Text between brackets.  The brackets are counted wherever they stand. -/

namespace Wardex.Lib

/-- What stands before the closing bracket that brings the depth to zero, and what follows it. -/
def splitClose (o c : Char) : Int → List Char → List Char × Option (List Char)
  | _, [] => ([], none)
  | depth, d :: rest =>
    if d = o then (splitClose o c (depth + 1) rest).map (List.cons d) id
    else if d = c then
      if depth - 1 = 0 then ([], some rest)
      else (splitClose o c (depth - 1) rest).map (List.cons d) id
    else (splitClose o c depth rest).map (List.cons d) id

/-- Every closing bracket closes one opened before it, and every opened one is closed. -/
structure Balanced (o c : Char) (text : List Char) : Prop where
  closed : text.count c = text.count o
  opened : ∀ front, front <+: text → front.count c ≤ front.count o

instance (o c : Char) (text : List Char) : Decidable (Balanced o c text) :=
  decidable_of_iff (text.count c = text.count o ∧
      ∀ front ∈ text.inits, front.count c ≤ front.count o)
    ⟨fun h => ⟨h.1, fun front hfront => h.2 front ((List.mem_inits _ _).mpr hfront)⟩,
      fun h => ⟨h.closed, fun front hfront => h.opened front ((List.mem_inits _ _).mp hfront)⟩⟩

section

variable {o c : Char} {text : List Char}

/-- A character that does not bring the depth to zero is passed over. -/
theorem splitClose_cons (hoc : o ≠ c) {depth : Int} {d : Char}
    (h : ([d].count c : Int) < [d].count o + depth) (rest : List Char) :
    splitClose o c depth (d :: rest) =
      (splitClose o c (depth + [d].count o - [d].count c) rest).map (List.cons d) id := by
  rw [splitClose]
  by_cases ho : d = o
  · subst ho
    have hother : [d].count c = 0 := List.count_eq_zero.mpr (by simpa using hoc.symm)
    rw [if_pos rfl, List.count_singleton_self, hother]
    simp
  · by_cases hc : d = c
    · subst hc
      have hother : [d].count o = 0 := List.count_eq_zero.mpr (by simpa using hoc)
      have hopen : depth - 1 ≠ 0 := by
        rw [List.count_singleton_self, hother] at h
        push_cast at h
        linarith
      rw [if_neg ho, if_pos rfl, if_neg hopen, List.count_singleton_self, hother]
      simp
    · have hopening : [d].count o = 0 := List.count_eq_zero.mpr (by simpa using Ne.symm ho)
      have hclosing : [d].count c = 0 := List.count_eq_zero.mpr (by simpa using Ne.symm hc)
      rw [if_neg ho, if_neg hc, hopening, hclosing]
      simp

/-- So is a text in which the depth stays above zero. -/
theorem splitClose_append (hoc : o ≠ c) {depth : Int}
    (h : ∀ front, front <+: text → (front.count c : Int) < front.count o + depth)
    (rest : List Char) : splitClose o c depth (text ++ rest) =
      (splitClose o c (depth + text.count o - text.count c) rest).map (text ++ ·) id := by
  induction text generalizing depth with
  | nil =>
    rw [List.count_nil, List.count_nil, Nat.cast_zero, add_zero, sub_zero]
    rfl
  | cons d text ih =>
    have hcount : ∀ (b : Char) (l : List Char),
        ((d :: l).count b : Int) = [d].count b + l.count b := by
      intro b l
      rw [← List.singleton_append, List.count_append, Nat.cast_add]
    have hfirst := h [d] (List.prefix_append [d] text)
    have hlow : ∀ front, front <+: text →
        (front.count c : Int) < front.count o + (depth + [d].count o - [d].count c) := by
      intro front hfront
      have hlater := h (d :: front) ((List.prefix_cons_inj d).mpr hfront)
      rw [hcount c front, hcount o front] at hlater
      linarith
    have hdepth : depth + [d].count o - [d].count c + text.count o - text.count c =
        depth + (d :: text).count o - (d :: text).count c := by
      rw [hcount c text, hcount o text]
      ring
    rw [List.cons_append, splitClose_cons hoc hfirst, ih hlow, hdepth, Prod.map_map]
    rfl

theorem splitClose_inside (hoc : o ≠ c) (h : Balanced o c text) (rest : List Char) :
    splitClose o c 1 (text ++ c :: rest) = (text, some rest) := by
  have hdepth : (1 : Int) + text.count o - text.count c = 1 := by
    rw [h.closed]
    ring
  have hlow : ∀ front, front <+: text → (front.count c : Int) < front.count o + 1 := by
    intro front hfront
    have := h.opened front hfront
    linarith [(Nat.cast_le (α := Int)).mpr this]
  rw [splitClose_append hoc hlow, hdepth, splitClose, if_neg hoc.symm, if_pos rfl, if_pos (by rfl)]
  simp

theorem splitClose_wrap (hoc : o ≠ c) (h : Balanced o c text) (rest : List Char) :
    splitClose o c 0 (o :: (text ++ c :: rest)) = (o :: text, some rest) := by
  rw [splitClose, if_pos rfl, Int.zero_add, splitClose_inside hoc h]
  rfl

theorem balanced_of_free (ho : o ∉ text) (hc : c ∉ text) : Balanced o c text where
  closed := by rw [List.count_eq_zero.mpr ho, List.count_eq_zero.mpr hc]
  opened front hfront := by
    rw [List.count_eq_zero.mpr fun h => hc (hfront.subset h)]
    exact Nat.zero_le _

theorem Balanced.append {text' : List Char} (h : Balanced o c text) (h' : Balanced o c text') :
    Balanced o c (text ++ text') where
  closed := by rw [List.count_append, List.count_append, h.closed, h'.closed]
  opened front hfront := by
    rcases List.prefix_or_prefix_of_prefix hfront (List.prefix_append text text') with hin | hin
    · exact h.opened front hin
    · obtain ⟨more, rfl⟩ := hin
      have hmore := h'.opened more ((List.prefix_append_right_inj text).mp hfront)
      rw [List.count_append, List.count_append, h.closed]
      exact Nat.add_le_add_left hmore _

theorem Balanced.wrap (hoc : o ≠ c) (h : Balanced o c text) :
    Balanced o c (o :: (text ++ [c])) where
  closed := by
    rw [List.count_cons_of_ne hoc, List.count_cons_self, List.count_append, List.count_append,
      List.count_singleton_self, h.closed, List.count_singleton, if_neg (by simpa using hoc.symm)]
  opened front hfront := by
    rcases List.prefix_cons_iff.mp hfront with rfl | ⟨inner, rfl, hinner⟩
    · exact Nat.le_refl 0
    · rw [List.count_cons_of_ne hoc, List.count_cons_self]
      rcases List.prefix_concat_iff.mp hinner with rfl | hinner
      · rw [List.count_append, List.count_append, List.count_singleton_self, h.closed]
        exact Nat.add_le_add_right (Nat.le_add_right _ _) 1
      · exact (h.opened inner hinner).trans (Nat.le_succ _)

/-! ## Where the brackets of a text close -/

theorem splitClose_suffix (o c : Char) (depth : Int) (text : List Char) :
    (splitClose o c depth text).2.getD [] <:+ text := by
  induction text generalizing depth with
  | nil => exact List.suffix_refl []
  | cons d rest ih =>
    rw [splitClose]
    split_ifs
    · exact (ih (depth + 1)).trans (List.suffix_cons d rest)
    · exact List.suffix_cons d rest
    · exact (ih (depth - 1)).trans (List.suffix_cons d rest)
    · exact (ih depth).trans (List.suffix_cons d rest)

/-- A text with a closing bracket for each that is open has the one that closes them all. -/
theorem splitClose_isSome (hoc : o ≠ c) {depth : Int} (hdepth : 1 ≤ depth)
    (h : (text.count o : Int) + depth ≤ text.count c) : (splitClose o c depth text).2.isSome := by
  induction text generalizing depth with
  | nil =>
    rw [List.count_nil, List.count_nil] at h
    push_cast at h
    linarith
  | cons d rest ih =>
    rw [splitClose]
    by_cases ho : d = o
    · subst ho
      rw [List.count_cons_self, List.count_cons_of_ne hoc] at h
      push_cast at h
      rw [if_pos rfl]
      exact ih (by linarith) (by linarith)
    · rw [if_neg ho]
      rw [List.count_cons_of_ne ho] at h
      by_cases hc : d = c
      · subst hc
        rw [List.count_cons_self] at h
        push_cast at h
        rw [if_pos rfl]
        split_ifs with hzero
        · rfl
        · exact ih (by omega) (by linarith)
      · rw [List.count_cons_of_ne hc] at h
        rw [if_neg hc]
        exact ih hdepth h

/-- The text is split at the first place where the closing brackets outnumber the opening ones by
the depth. -/
theorem of_splitClose (hoc : o ≠ c) {before rest : List Char} {depth : Int} (hdepth : 1 ≤ depth)
    (h : splitClose o c depth text = (before, some rest)) :
    text = before ++ c :: rest ∧ (before.count c : Int) + 1 = before.count o + depth ∧
      ∀ front, front <+: before → (front.count c : Int) < front.count o + depth := by
  induction text generalizing depth before with
  | nil => cases h
  | cons d text ih =>
    by_cases hlast : d = c ∧ depth = 1
    · obtain ⟨rfl, rfl⟩ := hlast
      rw [splitClose, if_neg hoc.symm, if_pos rfl, if_pos (by rfl)] at h
      obtain ⟨rfl, hrest⟩ := Prod.mk.inj h
      obtain rfl := Option.some.inj hrest
      refine ⟨rfl, by simp, fun front hfront => ?_⟩
      rw [List.prefix_nil.mp hfront]
      simp
    · have hpassed : ([d].count c : Int) < [d].count o + depth := by
        by_cases hc : d = c
        · have hopen : depth ≠ 1 := fun hone => hlast ⟨hc, hone⟩
          rw [hc, List.count_singleton_self]
          have := Int.natCast_nonneg ([c].count o)
          push_cast
          omega
        · rw [List.count_singleton, if_neg (by simpa using hc)]
          have := Int.natCast_nonneg ([d].count o)
          push_cast
          omega
      rw [splitClose_cons hoc hpassed] at h
      rcases hsplit :
        splitClose o c (depth + [d].count o - [d].count c) text with ⟨inside, behind⟩
      rw [hsplit] at h
      obtain ⟨rfl, rfl⟩ := Prod.mk.inj h
      obtain ⟨htext, hcount, hfront⟩ := ih (by omega) hsplit
      have hcons : ∀ (b : Char) (l : List Char),
          ((d :: l).count b : Int) = [d].count b + l.count b := by
        intro b l
        rw [← List.singleton_append, List.count_append, Nat.cast_add]
      refine ⟨congrArg (List.cons d) htext, ?_, fun front hprefix => ?_⟩
      · rw [hcons c inside, hcons o inside]
        omega
      · rcases List.prefix_cons_iff.mp hprefix with rfl | ⟨inner, rfl, hinner⟩
        · rw [List.count_nil, List.count_nil]
          push_cast
          omega
        · have hlow := hfront inner hinner
          rw [hcons c inner, hcons o inner]
          omega

/-- What a bracket opened and closed again holds is balanced. -/
theorem balanced_of_splitClose (hoc : o ≠ c) {before rest : List Char}
    (h : splitClose o c 0 (o :: text) = (before, some rest)) :
    ∃ content, before = o :: content ∧ text = content ++ c :: rest ∧ Balanced o c content := by
  rw [splitClose, if_pos rfl, Int.zero_add] at h
  rcases hsplit : splitClose o c 1 text with ⟨inside, behind⟩
  rw [hsplit] at h
  obtain ⟨rfl, rfl⟩ := Prod.mk.inj h
  obtain ⟨htext, hcount, hfront⟩ := of_splitClose hoc (Int.le_refl 1) hsplit
  refine ⟨inside, rfl, htext, by omega, fun front hprefix => ?_⟩
  have := hfront front hprefix
  omega

/-- In a balanced text every opening bracket finds the one that closes it. -/
theorem Balanced.isSome_splitClose (hoc : o ≠ c) (h : Balanced o c text) {behind : List Char}
    (hsuffix : (o :: behind) <:+ text) : (splitClose o c 0 (o :: behind)).2.isSome := by
  obtain ⟨front, rfl⟩ := hsuffix
  have hopened := h.opened front (List.prefix_append _ _)
  have hclosed := h.closed
  rw [List.count_append, List.count_append, List.count_cons_self, List.count_cons_of_ne hoc]
    at hclosed
  rw [splitClose, if_pos rfl, Int.zero_add]
  exact splitClose_isSome hoc (Int.le_refl 1) (by omega)

end

end Wardex.Lib
