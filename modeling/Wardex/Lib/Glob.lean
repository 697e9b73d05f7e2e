import Mathlib.Data.List.Forall2
import Mathlib.Data.List.Induction

/-! Patterns in which one letter stands for any word and another for any letter, and the table that
decides them: its rows are the beginnings of the pattern, its columns those of the word. -/

namespace Wardex.Lib.Glob

section Meaning

variable {α : Type*} [DecidableEq α] (star any : α)

def Covers (p : α) (piece : List α) : Prop :=
  if p = star then True else if p = any then piece.length = 1 else piece = [p]

def Matches (pattern word : List α) : Prop :=
  ∃ pieces : List (List α), pieces.flatten = word ∧ List.Forall₂ (Covers star any) pattern pieces

/-- The rest of a row from the row above it: the entry of a column is told by the entry above it,
the one before that, and the one before it in its own row. -/
def rowFrom (p : α) (left : Bool) : List Bool → List α → List Bool
  | diag :: up :: above, c :: word =>
    let cell := if p = star then up || left else if p = any ∨ p = c then diag else false
    cell :: rowFrom p cell (up :: above) word
  | _, _ => []

def nextRow (word : List α) (above : List Bool) (p : α) : List Bool :=
  let first := if p = star then above.headD false else false
  first :: rowFrom star any p first above word

def firstRow (word : List α) : List Bool := true :: word.map fun _ => false

def table (pattern word : List α) : List Bool :=
  pattern.foldl (nextRow star any word) (firstRow word)

def decides (pattern word : List α) : Bool := (table star any pattern word).getLastD false

end Meaning

section

variable {α : Type*} [DecidableEq α] {star any : α} {pattern word : List α} {p c : α}

theorem matches_nil : Matches star any [] word ↔ word = [] := by
  constructor
  · rintro ⟨pieces, rfl, hcovers⟩
    rw [List.forall₂_nil_left_iff.mp hcovers]
    rfl
  · rintro rfl
    exact ⟨[], rfl, .nil⟩

/-- Two patterns one after the other match what is cut into a word of each. -/
theorem matches_append {pattern' : List α} : Matches star any (pattern ++ pattern') word ↔
    ∃ front back, word = front ++ back ∧ Matches star any pattern front ∧
      Matches star any pattern' back := by
  constructor
  · rintro ⟨pieces, rfl, hcovers⟩
    have hfronts := List.forall₂_take pattern.length hcovers
    have hbacks := List.forall₂_drop pattern.length hcovers
    rw [List.take_left] at hfronts
    rw [List.drop_left] at hbacks
    refine ⟨_, _, ?_, ⟨_, rfl, hfronts⟩, _, rfl, hbacks⟩
    rw [← List.flatten_append, List.take_append_drop]
  · rintro ⟨front, back, rfl, ⟨pieces, rfl, hfront⟩, ⟨pieces', rfl, hback⟩⟩
    exact ⟨pieces ++ pieces', List.flatten_append, List.rel_append hfront hback⟩

theorem matches_singleton : Matches star any [p] word ↔ Covers star any p word := by
  constructor
  · rintro ⟨pieces, rfl, hcovers⟩
    obtain ⟨piece, rest, hpiece, hrest, rfl⟩ := List.forall₂_cons_left_iff.mp hcovers
    rw [List.forall₂_nil_left_iff.mp hrest, List.flatten_singleton]
    exact hpiece
  · exact fun h => ⟨[word], List.flatten_singleton, .cons h .nil⟩

theorem matches_concat : Matches star any (pattern ++ [p]) word ↔
    ∃ front piece, word = front ++ piece ∧ Matches star any pattern front ∧
      Covers star any p piece := by
  simp only [matches_append, matches_singleton]

theorem matches_star_cons : Matches star any (star :: pattern) word ↔
    ∃ gap rest, word = gap ++ rest ∧ Matches star any pattern rest := by
  rw [← List.singleton_append, matches_append]
  have hcovers : ∀ gap : List α, Matches star any [star] gap := fun gap => by
    rw [matches_singleton, Covers, if_pos rfl]
    trivial
  simp only [hcovers, true_and]

/-- A pattern in which every letter stands for itself matches one word. -/
theorem matches_literal (hstar : star ∉ pattern) (hany : any ∉ pattern) :
    Matches star any pattern word ↔ word = pattern := by
  induction pattern generalizing word with
  | nil => exact matches_nil
  | cons c pattern ih =>
    have hc : c ≠ star := (List.ne_of_not_mem_cons hstar).symm
    have hc' : c ≠ any := (List.ne_of_not_mem_cons hany).symm
    rw [← List.singleton_append, matches_append]
    simp only [matches_singleton, Covers, if_neg hc, if_neg hc',
      ih (List.not_mem_of_not_mem_cons hstar) (List.not_mem_of_not_mem_cons hany),
      exists_eq_right_right, exists_eq_right]

/-! ## The last letter of a pattern -/

theorem covers_letter (hp : p ≠ star) {piece : List α} :
    Covers star any p piece ↔ ∃ c, piece = [c] ∧ (p = any ∨ p = c) := by
  rw [Covers, if_neg hp]
  split_ifs with hany
  · rw [List.length_eq_one_iff]
    simp [hany]
  · constructor
    · rintro rfl
      exact ⟨p, rfl, .inr rfl⟩
    · rintro ⟨c, rfl, h | rfl⟩
      · exact absurd h hany
      · rfl

theorem matches_star_nil :
    Matches star any (pattern ++ [star]) [] ↔ Matches star any pattern [] := by
  rw [matches_concat]
  constructor
  · rintro ⟨front, piece, hword, hfront, -⟩
    rwa [(List.append_eq_nil_iff.mp hword.symm).1] at hfront
  · exact fun h => ⟨[], [], rfl, h, by rw [Covers, if_pos rfl]; trivial⟩

theorem matches_star_concat :
    Matches star any (pattern ++ [star]) (word ++ [c]) ↔
      Matches star any pattern (word ++ [c]) ∨ Matches star any (pattern ++ [star]) word := by
  have hcovers : ∀ piece, Covers star any star piece := fun piece => by
    rw [Covers, if_pos rfl]
    trivial
  rw [matches_concat]
  constructor
  · rintro ⟨front, piece, hword, hfront, -⟩
    rcases List.eq_nil_or_concat' piece with rfl | ⟨more, d, rfl⟩
    · rw [List.append_nil] at hword
      exact .inl (hword ▸ hfront)
    -- a star that covers something covers the last letter
    · rw [← List.append_assoc] at hword
      obtain ⟨rfl, -⟩ := List.append_inj' hword rfl
      exact .inr (matches_concat.mpr ⟨front, more, rfl, hfront, hcovers more⟩)
  · rintro (h | h)
    · exact ⟨word ++ [c], [], (List.append_nil _).symm, h, hcovers []⟩
    · obtain ⟨front, piece, rfl, hfront, -⟩ := matches_concat.mp h
      exact ⟨front, piece ++ [c], List.append_assoc _ _ _, hfront, hcovers _⟩

theorem not_matches_letter_nil (hp : p ≠ star) : ¬ Matches star any (pattern ++ [p]) [] := by
  rw [matches_concat]
  rintro ⟨front, piece, hword, -, hpiece⟩
  obtain ⟨c, rfl, -⟩ := (covers_letter hp).mp hpiece
  exact absurd (List.append_eq_nil_iff.mp hword.symm).2 (List.cons_ne_nil c [])

theorem matches_letter_concat (hp : p ≠ star) :
    Matches star any (pattern ++ [p]) (word ++ [c]) ↔
      (p = any ∨ p = c) ∧ Matches star any pattern word := by
  rw [matches_concat]
  constructor
  · rintro ⟨front, piece, hword, hfront, hpiece⟩
    obtain ⟨d, rfl, hd⟩ := (covers_letter hp).mp hpiece
    obtain ⟨rfl, hc⟩ := List.append_inj' hword rfl
    obtain ⟨rfl, -⟩ := List.cons.inj hc
    exact ⟨hd, hfront⟩
  · rintro ⟨hc, hword⟩
    exact ⟨word, [c], rfl, hword, (covers_letter hp).mpr ⟨c, rfl, hc⟩⟩

/-! ## The table -/

/-- The entries of the row tell for the beginnings of the word, from `read` on, whether they have
the property. -/
def Row {α : Type*} (holds : List α → Prop) (read : List α) : List Bool → List α → Prop
  | [], _ => False
  | b :: row, [] => (b = true ↔ holds read) ∧ row = []
  | b :: row, c :: word => (b = true ↔ holds read) ∧ Row holds (read ++ [c]) row word

theorem Row.ne_nil {α : Type*} {word : List α} {holds : List α → Prop} {read : List α}
    {row : List Bool} (h : Row holds read row word) : row ≠ [] := by
  rintro rfl
  cases word <;> exact h

theorem Row.head {α : Type*} {word : List α} {holds : List α → Prop} {read : List α} {b : Bool}
    {row : List Bool} (h : Row holds read (b :: row) word) : b = true ↔ holds read := by
  cases word with
  | nil => exact h.1
  | cons c word => exact h.1

theorem Row.getLastD {α : Type*} {word : List α} {holds : List α → Prop} {read : List α}
    {row : List Bool} (h : Row holds read row word) :
    row.getLastD false = true ↔ holds (read ++ word) := by
  induction word generalizing read row with
  | nil =>
    cases row with
    | nil => exact absurd rfl h.ne_nil
    | cons b row =>
      obtain ⟨hb, rfl⟩ := h
      rwa [List.append_nil]
  | cons c word ih =>
    cases row with
    | nil => exact absurd rfl h.ne_nil
    | cons b row =>
      have hlast := ih h.2
      rw [List.append_assoc, List.singleton_append] at hlast
      cases row with
      | nil => exact absurd rfl h.2.ne_nil
      | cons b' row => simpa using hlast

theorem row_firstRow : Row (Matches star any []) [] (firstRow word) word := by
  have hfalse : ∀ (read word : List α), read ≠ [] →
      Row (Matches star any []) read (false :: word.map fun _ => false) word := by
    intro read word hne
    have hnot : false = true ↔ Matches star any [] read :=
      ⟨nofun, fun h => absurd (matches_nil.mp h) hne⟩
    induction word generalizing read with
    | nil => exact ⟨hnot, rfl⟩
    | cons c word ih =>
      refine ⟨hnot, ih (read ++ [c]) (by simp) ?_⟩
      exact ⟨nofun, fun h => absurd (matches_nil.mp h) (by simp)⟩
  have htrue : true = true ↔ Matches star any [] ([] : List α) :=
    ⟨fun _ => matches_nil.mpr rfl, fun _ => rfl⟩
  cases word with
  | nil => exact ⟨htrue, rfl⟩
  | cons c word => exact ⟨htrue, hfalse [c] word (List.cons_ne_nil c [])⟩

theorem row_rowFrom {read : List α} {left : Bool} {above : List Bool}
    (habove : Row (Matches star any pattern) read above word)
    (hleft : left = true ↔ Matches star any (pattern ++ [p]) read) :
    Row (Matches star any (pattern ++ [p])) read (left :: rowFrom star any p left above word)
      word := by
  induction word generalizing read left above with
  | nil =>
    refine ⟨hleft, ?_⟩
    cases above with
    | nil => exact absurd rfl habove.ne_nil
    | cons diag above => cases above <;> rfl
  | cons c word ih =>
    cases above with
    | nil => exact absurd rfl habove.ne_nil
    | cons diag above =>
      cases above with
      | nil => exact absurd rfl habove.2.ne_nil
      | cons up above =>
        refine ⟨hleft, ih habove.2 ?_⟩
        have hdiag := habove.head
        have hup := habove.2.head
        by_cases hp : p = star
        · subst hp
          rw [if_pos rfl, matches_star_concat, Bool.or_eq_true, hup, hleft]
        · rw [if_neg hp, matches_letter_concat hp, ← hdiag]
          split_ifs with hc <;> simp [hc]

theorem row_nextRow {above : List Bool} (habove : Row (Matches star any pattern) [] above word) :
    Row (Matches star any (pattern ++ [p])) [] (nextRow star any word above p) word := by
  refine row_rowFrom habove ?_
  cases above with
  | nil => exact absurd rfl habove.ne_nil
  | cons b above =>
    have hb := habove.head
    by_cases hp : p = star
    · subst hp
      rw [if_pos rfl, matches_star_nil]
      exact hb
    · rw [if_neg hp]
      exact ⟨nofun, fun h => absurd h (not_matches_letter_nil hp)⟩

theorem row_table (pattern word : List α) :
    Row (Matches star any pattern) [] (table star any pattern word) word := by
  induction pattern using List.reverseRecOn with
  | nil => exact row_firstRow
  | append_singleton pattern p ih =>
    rw [table, List.foldl_append]
    exact row_nextRow ih

/-- The last entry of the last row tells whether the whole word matches. -/
theorem decides_iff : decides star any pattern word = true ↔ Matches star any pattern word := by
  have h : Row (Matches star any pattern) [] (table star any pattern word) word :=
    row_table pattern word
  have hlast := h.getLastD
  rwa [List.nil_append] at hlast

instance (star any : α) (pattern word : List α) : Decidable (Matches star any pattern word) :=
  decidable_of_iff _ decides_iff

end

end Wardex.Lib.Glob
