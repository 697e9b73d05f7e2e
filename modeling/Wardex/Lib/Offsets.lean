import Mathlib.Algebra.GroupWithZero.Nat
import Mathlib.Data.List.Infix

/-! Searching and cutting a text by byte offsets, as UTF-8 encodes it.  A cut inside a character
or beyond the end has no result. -/

namespace Wardex.Lib

def utf8Length (text : List Char) : Nat := (text.map Char.utf8Size).sum

/-- The byte offset of the first occurrence of `pat`. -/
def findByte (pat : List Char) : List Char → Option Nat
  | [] => if pat = [] then some 0 else none
  | c :: text =>
    if pat <+: c :: text then some 0 else (findByte pat text).map (c.utf8Size + ·)

def splitAtByte : List Char → Nat → Option (List Char × List Char)
  | text, 0 => some ([], text)
  | [], _ + 1 => none
  | c :: text, pos + 1 =>
    if pos + 1 < c.utf8Size then none
    else (splitAtByte text (pos + 1 - c.utf8Size)).map fun p => (c :: p.1, p.2)

/-- What stands before `pos` and what stands from `pos + width` on. -/
def cutOut (text : List Char) (pos width : Nat) : Option (List Char × List Char) :=
  match splitAtByte text pos, splitAtByte text (pos + width) with
  | some (left, _), some (_, right) => some (left, right)
  | _, _ => none

/-- What stands before and after the first occurrence of `pat`. -/
def splitFirst (pat : List Char) : List Char → Option (List Char × List Char)
  | [] => if pat = [] then some ([], []) else none
  | c :: text =>
    if pat <+: c :: text then some ([], (c :: text).drop pat.length)
    else (splitFirst pat text).map fun p => (c :: p.1, p.2)

/-- Replaces the occurrences of `pat` from left to right; `skip` characters belong to the
occurrence replaced last. -/
def replaceFrom (pat rep : List Char) : Nat → List Char → List Char
  | _, [] => []
  | skip + 1, _ :: text => replaceFrom pat rep skip text
  | 0, c :: text =>
    if pat <+: c :: text then rep ++ replaceFrom pat rep (pat.length - 1) text
    else c :: replaceFrom pat rep 0 text

def replaceAll (pat rep text : List Char) : List Char := replaceFrom pat rep 0 text

@[simp] theorem utf8Length_append (a b : List Char) :
    utf8Length (a ++ b) = utf8Length a + utf8Length b := by
  simp [utf8Length]

theorem length_le_utf8Length (text : List Char) : text.length ≤ utf8Length text := by
  induction text with
  | nil => exact Nat.le_refl 0
  | cons c text ih =>
    rw [utf8Length, List.map_cons, List.sum_cons, List.length_cons, Nat.add_comm]
    exact Nat.add_le_add c.utf8Size_pos ih

theorem utf8Length_sub_eq_iff {passed left : List Char} :
    utf8Length (passed ++ left) - utf8Length left = utf8Length (passed ++ left) ↔ left = [] := by
  constructor
  · intro h
    have hle := length_le_utf8Length left
    rw [utf8Length_append] at h
    exact List.length_eq_zero_iff.mp (by omega)
  · rintro rfl
    rfl

theorem splitAtByte_eq_some {text left right : List Char} {pos : Nat}
    (h : splitAtByte text pos = some (left, right)) :
    text = left ++ right ∧ utf8Length left = pos := by
  induction text generalizing left pos with
  | nil =>
    cases pos with
    | zero =>
      obtain ⟨rfl, rfl⟩ : [] = left ∧ [] = right := by simpa [splitAtByte] using h
      exact ⟨rfl, rfl⟩
    | succ pos => simp [splitAtByte] at h
  | cons c text ih =>
    cases pos with
    | zero =>
      obtain ⟨rfl, rfl⟩ : [] = left ∧ c :: text = right := by simpa [splitAtByte] using h
      exact ⟨rfl, rfl⟩
    | succ pos =>
      rw [splitAtByte] at h
      split at h
      · cases h
      · next hle =>
        obtain ⟨⟨a, b⟩, hab, hp⟩ := Option.map_eq_some_iff.mp h
        obtain ⟨rfl, rfl⟩ : c :: a = left ∧ b = right := by simpa using hp
        obtain ⟨rfl, hlen⟩ := ih hab
        refine ⟨rfl, ?_⟩
        simp only [utf8Length, List.map_cons, List.sum_cons] at hlen ⊢
        omega

/-- The text before a cut begins it, and the text behind it ends it. -/
theorem cutOut_eq_some {text left right : List Char} {pos width : Nat}
    (h : cutOut text pos width = some (left, right)) :
    ∃ b c, text = left ++ b ∧ text = c ++ right ∧ utf8Length left = pos ∧
      utf8Length c = pos + width := by
  rw [cutOut] at h
  split at h
  · next a b c d hl hr =>
    obtain ⟨rfl, rfl⟩ : a = left ∧ d = right := by simpa using h
    obtain ⟨hsplit, hpos⟩ := splitAtByte_eq_some hl
    obtain ⟨hsplit', hpos'⟩ := splitAtByte_eq_some hr
    exact ⟨b, c, hsplit, hsplit', hpos, hpos'⟩
  · cases h

/-- Both sides of a cut of positive width are shorter than the text. -/
theorem cutOut_length_lt {text left right : List Char} {pos width : Nat} (hw : 0 < width)
    (h : cutOut text pos width = some (left, right)) :
    left.length < text.length ∧ right.length < text.length := by
  obtain ⟨b, c, hsplit, hsplit', hpos, hpos'⟩ := cutOut_eq_some h
  have hbytes : utf8Length b = width + utf8Length right := by
    have htext := congrArg utf8Length (hsplit.symm.trans hsplit')
    simp only [utf8Length_append, hpos, hpos'] at htext
    omega
  have hb : b ≠ [] := by
    intro hnil
    simp only [hnil, utf8Length, List.map_nil, List.sum_nil] at hbytes
    omega
  have hc : c ≠ [] := by
    intro hnil
    simp only [hnil, utf8Length, List.map_nil, List.sum_nil] at hpos'
    omega
  have hlb := List.length_pos_iff.mpr hb
  have hlc := List.length_pos_iff.mpr hc
  constructor
  · rw [hsplit, List.length_append]
    omega
  · rw [hsplit', List.length_append]
    omega

theorem splitAtByte_append (left right : List Char) :
    splitAtByte (left ++ right) (utf8Length left) = some (left, right) := by
  induction left with
  | nil => cases right <;> rfl
  | cons c left ih =>
    have hpos : utf8Length (c :: left) = utf8Length left + (c.utf8Size - 1) + 1 := by
      have hc : 0 < c.utf8Size := c.utf8Size_pos
      rw [utf8Length, List.map_cons, List.sum_cons, ← utf8Length]
      omega
    have hsize : utf8Length left + (c.utf8Size - 1) + 1 - c.utf8Size = utf8Length left := by
      have hc : 0 < c.utf8Size := c.utf8Size_pos
      omega
    rw [hpos, List.cons_append, splitAtByte, if_neg (by omega), hsize, ih]
    rfl

/-- What stands between two texts is cut out between them. -/
theorem cutOut_append (left sep right : List Char) :
    cutOut (left ++ (sep ++ right)) (utf8Length left) (utf8Length sep) = some (left, right) := by
  have hright := splitAtByte_append (left ++ sep) right
  rw [utf8Length_append, List.append_assoc] at hright
  rw [cutOut, splitAtByte_append, hright]

theorem splitFirst_append {c : Char} {left : List Char} (h : c ∉ left) (pat right : List Char) :
    splitFirst (c :: pat) (left ++ (c :: pat ++ right)) = some (left, right) := by
  induction left with
  | nil =>
    have hpre : c :: pat <+: c :: (pat ++ right) := List.prefix_append (c :: pat) right
    rw [List.nil_append, List.cons_append, splitFirst, if_pos hpre, ← List.cons_append,
      List.drop_left]
  | cons d left ih =>
    have hd : ¬ c :: pat <+: d :: (left ++ (c :: pat ++ right)) := by
      intro hpre
      exact h (List.mem_cons.mpr (.inl (List.cons_prefix_cons.mp hpre).1))
    rw [List.cons_append, splitFirst, if_neg hd, ih (List.not_mem_of_not_mem_cons h)]
    rfl

theorem splitFirst_eq_some {part text left right : List Char}
    (h : splitFirst part text = some (left, right)) :
    text = left ++ (part ++ right) := by
  induction text generalizing left with
  | nil =>
    rw [splitFirst] at h
    split_ifs at h with hpart
    cases h
    rw [hpart]
    rfl
  | cons c text ih =>
    rw [splitFirst] at h
    split_ifs at h with hprefix
    · cases h
      rw [List.nil_append, List.prefix_iff_eq_append.mp hprefix]
    · obtain ⟨⟨left, right⟩, hfirst, hp⟩ := Option.map_eq_some_iff.mp h
      cases hp
      rw [ih hfirst]
      rfl

/-- The first occurrence leaves at least what any other leaves. -/
theorem exists_splitFirst (gap part rest : List Char) :
    ∃ left right, splitFirst part (gap ++ (part ++ rest)) = some (left, right) ∧
      rest <:+ right := by
  induction gap with
  | nil =>
    cases htext : part ++ rest with
    | nil =>
      obtain ⟨rfl, rfl⟩ := List.append_eq_nil_iff.mp htext
      exact ⟨[], [], rfl, List.suffix_rfl⟩
    | cons c text =>
      have hprefix : part <+: c :: text := htext ▸ List.prefix_append part rest
      refine ⟨[], (c :: text).drop part.length, ?_, ?_⟩
      · rw [List.nil_append, splitFirst, if_pos hprefix]
      · rw [← htext, List.drop_left]
  | cons c gap ih =>
    rw [List.cons_append, splitFirst]
    split_ifs with hprefix
    · obtain ⟨right, hright⟩ := hprefix
      refine ⟨[], _, rfl, ?_⟩
      have hlength : rest.length ≤ right.length := by
        have hlengths := congrArg List.length hright
        simp only [List.length_append, List.length_cons] at hlengths
        omega
      have hsuffix : rest <:+ part ++ right := by
        rw [hright]
        exact ((List.suffix_append part rest).trans (List.suffix_append gap _)).trans
          (List.suffix_cons c _)
      rw [← hright, List.drop_left]
      exact List.suffix_of_suffix_length_le hsuffix (List.suffix_append part right) hlength
    · obtain ⟨left, right, hfirst, hsuffix⟩ := ih
      exact ⟨c :: left, right, by rw [hfirst, Option.map_some], hsuffix⟩

theorem findByte_eq_map (part text : List Char) :
    findByte part text = (splitFirst part text).map fun p => utf8Length p.1 := by
  induction text with
  | nil =>
    rw [findByte, splitFirst]
    split_ifs <;> rfl
  | cons c text ih =>
    rw [findByte, splitFirst]
    split_ifs
    · rfl
    · rw [ih, Option.map_map, Option.map_map]
      congr 1

theorem splitFirst_nil (text : List Char) : splitFirst [] text = some ([], text) := by
  cases text with
  | nil => rfl
  | cons c text => rw [splitFirst, if_pos List.nil_prefix, List.length_nil, List.drop_zero]

/-- A byte offset at which no character is cut. -/
def IsBoundary (text : List Char) (pos : Nat) : Prop :=
  ∃ left right, text = left ++ right ∧ utf8Length left = pos

theorem isSome_splitAtByte {text : List Char} {pos : Nat} :
    (splitAtByte text pos).isSome ↔ IsBoundary text pos := by
  constructor
  · intro h
    obtain ⟨⟨left, right⟩, hsplit⟩ := Option.isSome_iff_exists.mp h
    obtain ⟨htext, hpos⟩ := splitAtByte_eq_some hsplit
    exact ⟨left, right, htext, hpos⟩
  · rintro ⟨left, right, rfl, rfl⟩
    rw [splitAtByte_append]
    rfl

theorem isSome_cutOut {text : List Char} {pos width : Nat} :
    (cutOut text pos width).isSome ↔ IsBoundary text pos ∧ IsBoundary text (pos + width) := by
  rw [← isSome_splitAtByte, ← isSome_splitAtByte, cutOut]
  cases splitAtByte text pos <;> cases splitAtByte text (pos + width) <;> simp

/-- An occurrence begins and ends between characters. -/
theorem findByte_eq_some {pat text : List Char} {pos : Nat} (h : findByte pat text = some pos) :
    ∃ left right, text = left ++ (pat ++ right) ∧ utf8Length left = pos := by
  induction text generalizing pos with
  | nil =>
    rw [findByte] at h
    split_ifs at h with hpat
    exact ⟨[], [], by rw [hpat]; rfl, Option.some.inj h⟩
  | cons c text ih =>
    rw [findByte] at h
    split_ifs at h with hpre
    · obtain ⟨right, hright⟩ := hpre
      exact ⟨[], right, hright.symm, Option.some.inj h⟩
    · obtain ⟨pos', hfound, rfl⟩ := Option.map_eq_some_iff.mp h
      obtain ⟨left, right, rfl, rfl⟩ := ih hfound
      exact ⟨c :: left, right, rfl, by simp [utf8Length]⟩

theorem isBoundary_findByte {pat text : List Char} {pos : Nat} (h : findByte pat text = some pos) :
    IsBoundary text pos ∧ IsBoundary text (pos + utf8Length pat) := by
  obtain ⟨left, right, rfl, rfl⟩ := findByte_eq_some h
  refine ⟨⟨left, pat ++ right, rfl, rfl⟩, left ++ pat, right, ?_, utf8Length_append left pat⟩
  rw [List.append_assoc]

theorem utf8Length_le_of_isInfix {part text : List Char} (h : part <:+: text) :
    utf8Length part ≤ utf8Length text := by
  obtain ⟨left, right, rfl⟩ := h
  rw [utf8Length_append, utf8Length_append]
  omega

/-- Both sides of a cut of positive width have fewer bytes than the text. -/
theorem cutOut_utf8Length_lt {text left right : List Char} {pos width : Nat} (hw : 0 < width)
    (h : cutOut text pos width = some (left, right)) :
    utf8Length left < utf8Length text ∧ utf8Length right < utf8Length text := by
  obtain ⟨b, c, -, hsplit', hpos, hpos'⟩ := cutOut_eq_some h
  have hbytes : utf8Length text = pos + width + utf8Length right := by
    rw [hsplit', utf8Length_append, hpos']
  omega

theorem cutOut_subset {text left right : List Char} {pos width : Nat}
    (h : cutOut text pos width = some (left, right)) : left ⊆ text ∧ right ⊆ text := by
  obtain ⟨b, c, hsplit, hsplit', -, -⟩ := cutOut_eq_some h
  constructor
  · rw [hsplit]
    exact List.subset_append_left left b
  · rw [hsplit']
    exact List.subset_append_right c right

section

variable {pat rep : List Char}

theorem replaceFrom_skip (passed text : List Char) :
    replaceFrom pat rep passed.length (passed ++ text) = replaceFrom pat rep 0 text := by
  induction passed with
  | nil => rfl
  | cons c passed ih => exact ih

theorem replaceAll_occurrence (hpat : pat ≠ []) (text : List Char) :
    replaceAll pat rep (pat ++ text) = rep ++ replaceAll pat rep text := by
  obtain ⟨c, rest, rfl⟩ := List.exists_cons_of_ne_nil hpat
  have hpre : c :: rest <+: c :: (rest ++ text) := List.prefix_append (c :: rest) text
  rw [replaceAll, List.cons_append, replaceFrom, if_pos hpre]
  exact congrArg (rep ++ ·) (replaceFrom_skip rest text)

/-- What no occurrence begins in stays. -/
theorem replaceAll_append {left text : List Char}
    (h : ∀ a c b, left = a ++ c :: b → ¬ pat <+: c :: (b ++ text)) :
    replaceAll pat rep (left ++ text) = left ++ replaceAll pat rep text := by
  induction left with
  | nil => rfl
  | cons c left ih =>
    have hrest := ih fun a d b hleft => h (c :: a) d b (congrArg (List.cons c) hleft)
    rw [List.cons_append, replaceAll, replaceFrom, if_neg (h [] c left rfl)]
    exact congrArg (List.cons c) hrest

/-- In a text made of pieces, where the pattern occurs exactly as the selected pieces, these are
replaced. -/
theorem replaceAll_flatMap {α : Type*} {f : α → List Char} {sel : α → Prop} [DecidablePred sel]
    (hpat : pat ≠ []) {pieces : List α} (hsel : ∀ d ∈ pieces, sel d → f d = pat)
    (h : ∀ a b, pieces.flatMap f = a ++ (pat ++ b) →
      ∃ left d right, pieces = left ++ d :: right ∧ sel d ∧ left.flatMap f = a) :
    replaceAll pat rep (pieces.flatMap f) = pieces.flatMap fun d => if sel d then rep else f d := by
  induction pieces with
  | nil => rfl
  | cons d pieces ih =>
    have hrest := ih (fun e he => hsel e (List.mem_cons_of_mem d he)) fun a b hocc => by
      obtain ⟨left, e, right, hpieces, he, hleft⟩ := h (f d ++ a) b (by
        rw [List.flatMap_cons, hocc, List.append_assoc])
      cases left with
      | nil =>
        obtain ⟨rfl, rfl⟩ := List.cons.inj hpieces
        have hnil := List.append_eq_nil_iff.mp hleft.symm
        exact absurd ((hsel d List.mem_cons_self he).symm.trans hnil.1) hpat
      | cons e' left =>
        obtain ⟨rfl, rfl⟩ := List.cons.inj hpieces
        rw [List.flatMap_cons] at hleft
        exact ⟨left, e, right, rfl, he, List.append_cancel_left hleft⟩
    rw [List.flatMap_cons, List.flatMap_cons, ← hrest]
    split_ifs with hd
    · rw [hsel d List.mem_cons_self hd, replaceAll_occurrence hpat]
    · refine replaceAll_append fun a c b hfd hpre => ?_
      obtain ⟨behind, hbehind⟩ := hpre
      obtain ⟨left, e, right, hpieces, he, hleft⟩ := h a behind (by
        rw [List.flatMap_cons, hfd, hbehind, List.append_assoc, List.cons_append])
      cases left with
      | nil =>
        obtain ⟨rfl, -⟩ := List.cons.inj hpieces
        exact hd he
      | cons e' left =>
        -- the occurrence begins within the piece, not behind it
        obtain ⟨rfl, -⟩ := List.cons.inj hpieces
        have hlength := congrArg List.length hleft
        rw [List.flatMap_cons, hfd] at hlength
        simp only [List.length_append, List.length_cons] at hlength
        omega

end

end Wardex.Lib
