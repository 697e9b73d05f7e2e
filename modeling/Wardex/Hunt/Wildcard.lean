import Wardex.Lib.Delimited
import Wardex.Lib.Glob
import Wardex.Lib.Offsets

/-! Wildcards in the values of hunt queries.  The parts between the stars are located from the left,
each at its first occurrence, and the last one has to end where the text does. -/

namespace Wardex.Hunt

open Wardex.Lib

/-! ## The matcher -/

/-- The loop over the parts: `i` is the number of the next one, `pos` the byte after those located.
It ends with the byte after the last, or with none where a part is missing; it has no result where a
slice of the text would not begin at a character. -/
def locateParts (text : List Char) : ℕ → ℕ → List (List Char) → Option (Option ℕ)
  | _, pos, [] => some (some pos)
  | i, pos, part :: parts =>
    if part = [] then locateParts text (i + 1) pos parts
    else
      match splitAtByte text pos with
      | none => none
      | some (_, rest) =>
        match findByte part rest with
        | none => some none
        | some found =>
          if i = 0 ∧ found ≠ 0 then some none
          else locateParts text (i + 1) (pos + (found + utf8Length part)) parts

/-- `wildcard_match`, once the pattern and the text are in lower case. -/
def wildcardMatchLower (pattern text : List Char) : Option Bool :=
  if '*' ∉ pattern then some (pattern <:+: text)
  else
    let parts := pattern.splitOn '*'
    if parts.length = 1 then some (text = pattern)
    else
      (locateParts text 0 0 parts).map fun located =>
        match located with
        | none => false
        | some pos => if parts.getLastD [] = [] then true else pos = utf8Length text

def wildcardMatch (lower : String → String) (pattern text : String) : Option Bool :=
  wildcardMatchLower (lower pattern).toList (lower text).toList

/-- What a pattern means: each star stands for some text, every other character for itself. -/
def MatchesWildcards (pattern text : List Char) : Prop := Glob.Matches '*' '*' pattern text

/-- The matcher has a result, and it is the right one. -/
def MatchedExactly (pattern text : List Char) : Prop :=
  ∃ b, wildcardMatchLower pattern text = some b ∧ (b = true ↔ MatchesWildcards pattern text)

/-! ## Parts one after the other -/

/-- The parts stand in the text in their order, and the last ends it. -/
def Follow : List (List Char) → List Char → Prop
  | [], text => text = []
  | part :: parts, text => ∃ gap rest, text = gap ++ (part ++ rest) ∧ Follow parts rest

/-- Where the text is left when each part is taken at its first occurrence. -/
def placeFirst : List (List Char) → List Char → Option (List Char)
  | [], text => some text
  | part :: parts, text => (splitFirst part text).bind fun p => placeFirst parts p.2

variable {part text pattern rest : List Char} {parts : List (List Char)}

theorem matchesWildcards_intercalate {first : List Char} (hfirst : '*' ∉ first)
    (hparts : ∀ p ∈ parts, '*' ∉ p) :
    MatchesWildcards (['*'].intercalate (first :: parts)) text ↔
      ∃ rest, text = first ++ rest ∧ Follow parts rest := by
  induction parts generalizing first text with
  | nil =>
    rw [List.intercalate_singleton, MatchesWildcards, Glob.matches_literal hfirst hfirst]
    simp [Follow]
  | cons part parts ih =>
    rw [List.intercalate_cons_of_ne_nil (List.cons_ne_nil part parts), List.append_assoc,
      List.singleton_append, MatchesWildcards, Glob.matches_append]
    simp only [Glob.matches_literal hfirst hfirst, Glob.matches_star_cons, Follow]
    constructor
    · rintro ⟨front, back, rfl, rfl, gap, rest, rfl, hmatch⟩
      obtain ⟨rest', rfl, hfollow⟩ := (ih (hparts part List.mem_cons_self)
        fun p hp => hparts p (List.mem_cons_of_mem part hp)).mp hmatch
      exact ⟨_, rfl, gap, rest', rfl, hfollow⟩
    · rintro ⟨back, rfl, gap, rest', rfl, hfollow⟩
      refine ⟨first, _, rfl, rfl, gap, _, rfl, ?_⟩
      exact (ih (hparts part List.mem_cons_self)
        fun p hp => hparts p (List.mem_cons_of_mem part hp)).mpr ⟨rest', rfl, hfollow⟩

/-- A longer gap before the first part does no harm. -/
theorem Follow.append_left (h : Follow (part :: parts) text) (gap : List Char) :
    Follow (part :: parts) (gap ++ text) := by
  obtain ⟨gap', rest, rfl, hrest⟩ := h
  exact ⟨gap ++ gap', rest, (List.append_assoc _ _ _).symm, hrest⟩

/-- Nor does more text, where the last part is empty. -/
theorem Follow.append_right (h : Follow parts text) (hne : parts ≠ [])
    (hlast : parts.getLast hne = []) (more : List Char) : Follow parts (text ++ more) := by
  induction parts generalizing text with
  | nil => exact absurd rfl hne
  | cons part parts ih =>
    obtain ⟨gap, rest, rfl, hrest⟩ := h
    rcases eq_or_ne parts [] with rfl | hparts
    · obtain rfl : part = [] := hlast
      obtain rfl : rest = [] := hrest
      exact ⟨gap ++ more, [], by simp, rfl⟩
    · rw [List.getLast_cons hparts] at hlast
      exact ⟨gap, rest ++ more, by simp, ih hrest hparts hlast⟩

/-! ## The first places are the earliest -/

theorem exists_follow_of_placeFirst (h : placeFirst parts text = some rest) :
    ∃ front, text = front ++ rest ∧ Follow parts front := by
  induction parts generalizing text with
  | nil =>
    cases h
    exact ⟨[], rfl, rfl⟩
  | cons part parts ih =>
    obtain ⟨⟨left, right⟩, hfirst, hplaced⟩ := Option.bind_eq_some_iff.mp h
    obtain ⟨front, hright, hfollow⟩ := ih hplaced
    obtain rfl : right = front ++ rest := hright
    refine ⟨left ++ (part ++ front), ?_, left, front, rfl, hfollow⟩
    rw [splitFirst_eq_some hfirst, List.append_assoc, List.append_assoc]

/-- Wherever the parts stand, their first places leave at least what stands behind them. -/
theorem Follow.exists_placeFirst {front : List Char} (h : Follow parts front) (behind : List Char) :
    ∃ rest, placeFirst parts (front ++ behind) = some rest ∧ behind <:+ rest := by
  induction parts generalizing front with
  | nil =>
    obtain rfl : front = [] := h
    exact ⟨behind, rfl, List.suffix_rfl⟩
  | cons part parts ih =>
    obtain ⟨gap, front, rfl, hfront⟩ := h
    obtain ⟨left, right, hfirst, skipped, rfl⟩ := exists_splitFirst gap part (front ++ behind)
    have hplace : placeFirst (part :: parts) (gap ++ (part ++ front) ++ behind) =
        placeFirst parts (skipped ++ (front ++ behind)) := by
      rw [List.append_assoc, List.append_assoc, placeFirst, hfirst]
      rfl
    rw [hplace]
    cases parts with
    | nil =>
      obtain rfl : front = [] := hfront
      exact ⟨_, rfl, List.suffix_append skipped behind⟩
    | cons next parts =>
      rw [← List.append_assoc]
      exact ih (hfront.append_left skipped)

/-! ## The loop -/

/-- Behind the first part, the loop takes each part at its first place, and cuts the text between
characters. -/
theorem locateParts_succ (parts : List (List Char)) (i : ℕ) (passed rest : List Char) :
    locateParts (passed ++ rest) (i + 1) (utf8Length passed) parts =
      some ((placeFirst parts rest).map fun left =>
        utf8Length (passed ++ rest) - utf8Length left) := by
  induction parts generalizing i passed rest with
  | nil =>
    rw [locateParts, placeFirst, Option.map_some, utf8Length_append, Nat.add_sub_cancel]
  | cons part parts ih =>
    rw [locateParts, placeFirst]
    split_ifs with hpart
    · rw [ih, hpart, splitFirst_nil]
      rfl
    · rw [splitAtByte_append]
      dsimp only
      rw [findByte_eq_map]
      cases hfirst : splitFirst part rest with
      | none => rfl
      | some p =>
        obtain ⟨left, right⟩ := p
        have hcut : passed ++ rest = (passed ++ (left ++ part)) ++ right := by
          rw [splitFirst_eq_some hfirst]
          simp only [List.append_assoc]
        dsimp only [Option.map_some, Option.bind_some]
        rw [if_neg (fun h => absurd h.1 not_false), hcut, ← utf8Length_append,
          ← utf8Length_append, ih]

/-- The first part has to begin the text. -/
theorem locateParts_zero (first text : List Char) :
    locateParts text 0 0 (first :: parts) =
      some (if first <+: text then
        (placeFirst parts (text.drop first.length)).map fun left =>
          utf8Length text - utf8Length left
      else none) := by
  rw [locateParts]
  split_ifs with hfirst hprefix hprefix
  · rw [hfirst]
    exact locateParts_succ parts 0 [] text
  · exact absurd (hfirst ▸ List.nil_prefix) hprefix
  · obtain ⟨rest, rfl⟩ := hprefix
    have hfound : findByte first (first ++ rest) = some 0 := by
      cases hconcat : first ++ rest with
      | nil => exact absurd (List.append_eq_nil_iff.mp hconcat).1 hfirst
      | cons c text => rw [findByte, if_pos (hconcat ▸ List.prefix_append first rest)]
    have hrest := locateParts_succ parts 0 first rest
    rw [splitAtByte, List.drop_left]
    dsimp only
    rw [hfound]
    simpa using hrest
  · rw [splitAtByte]
    dsimp only
    cases hfound : findByte first text with
    | none => rfl
    | some found =>
      have hne : found ≠ 0 := by
        rintro rfl
        obtain ⟨left, right, rfl, hleft⟩ := findByte_eq_some hfound
        have hnil := length_le_utf8Length left
        rw [hleft, Nat.le_zero, List.length_eq_zero_iff] at hnil
        rw [hnil] at hprefix
        exact hprefix (List.prefix_append first right)
      exact if_pos ⟨rfl, hne⟩

/-- The matcher finds a match where it needs no more of the text than what the first places of the
parts take. -/
theorem wildcardMatchLower_splitOn {first : List Char} (text : List Char) (hne : parts ≠ [])
    (hsplit : pattern.splitOn '*' = first :: parts) :
    ∃ b, wildcardMatchLower pattern text = some b ∧ (b = true ↔ ∃ rest left, text = first ++ rest ∧
      placeFirst parts rest = some left ∧ (parts.getLast hne ≠ [] → left = [])) := by
  have hstar : '*' ∈ pattern := by
    by_contra hnot
    have hcount := length_splitOn '*' pattern
    rw [hsplit, List.count_eq_zero_of_not_mem hnot, List.length_cons] at hcount
    exact hne (List.length_eq_zero_iff.mp (Nat.succ.inj hcount))
  have hlength : (first :: parts).length ≠ 1 := by
    rw [List.length_cons]
    exact fun h => hne (List.length_eq_zero_iff.mp (Nat.succ.inj h))
  have hlast : (first :: parts).getLastD [] = parts.getLast hne := by
    rw [List.getLastD_cons, List.getLastD_eq_getLast?, List.getLast?_eq_some_getLast hne]
    rfl
  rw [wildcardMatchLower, if_neg (not_not.mpr hstar)]
  dsimp only
  rw [hsplit, if_neg hlength, locateParts_zero, hlast, Option.map_some]
  refine ⟨_, rfl, ?_⟩
  by_cases hprefix : first <+: text
  · obtain ⟨rest, rfl⟩ := hprefix
    rw [if_pos (List.prefix_append first rest), List.drop_left]
    cases hplaced : placeFirst parts rest with
    | none =>
      refine iff_of_false Bool.false_ne_true ?_
      rintro ⟨rest', left, htext, hleft, -⟩
      rw [← List.append_cancel_left htext, hplaced] at hleft
      cases hleft
    | some left =>
      obtain ⟨front, hrest, -⟩ := exists_follow_of_placeFirst hplaced
      have hend : utf8Length (first ++ rest) - utf8Length left = utf8Length (first ++ rest) ↔
          left = [] := by
        rw [hrest, ← List.append_assoc]
        exact utf8Length_sub_eq_iff
      dsimp only [Option.map_some]
      constructor
      · intro h
        refine ⟨rest, left, rfl, hplaced, fun hlast => ?_⟩
        rw [if_neg hlast, decide_eq_true_iff] at h
        exact hend.mp h
      · rintro ⟨rest', left', htext, hleft, hempty⟩
        rw [← List.append_cancel_left htext, hplaced] at hleft
        cases hleft
        by_cases hlast : parts.getLast hne = []
        · rw [if_pos hlast]
        · rw [if_neg hlast, decide_eq_true_iff]
          exact hend.mpr (hempty hlast)
  · rw [if_neg hprefix]
    refine iff_of_false Bool.false_ne_true ?_
    rintro ⟨rest, left, rfl, -⟩
    exact hprefix (List.prefix_append first rest)

/-! ## Exactness -/

theorem exists_splitOn_star (h : '*' ∈ pattern) :
    ∃ first parts, pattern.splitOn '*' = first :: parts ∧ parts ≠ [] := by
  obtain ⟨first, parts, hsplit⟩ := List.exists_cons_of_ne_nil (List.splitOn_ne_nil '*' pattern)
  refine ⟨first, parts, hsplit, ?_⟩
  rintro rfl
  have hcount := length_splitOn '*' pattern
  rw [hsplit, List.length_singleton] at hcount
  have hpos := List.count_pos_iff.mpr h
  omega

/-- Every slice begins at a character. -/
theorem isSome_wildcardMatch (lower : String → String) (pattern text : String) :
    (wildcardMatch lower pattern text).isSome := by
  rw [wildcardMatch]
  by_cases hstar : '*' ∈ (lower pattern).toList
  · obtain ⟨first, parts, hsplit, hne⟩ := exists_splitOn_star hstar
    obtain ⟨b, hb, -⟩ := wildcardMatchLower_splitOn (lower text).toList hne hsplit
    rw [hb]
    rfl
  · rw [wildcardMatchLower, if_pos hstar]
    rfl

theorem getLast?_eq_star_iff {first : List Char} (hne : parts ≠ [])
    (hsplit : pattern.splitOn '*' = first :: parts) :
    pattern.getLast? = some '*' ↔ parts.getLast hne = [] := by
  have hlast : '*' ∉ parts.getLast hne := by
    have hmem : parts.getLast hne ∈ pattern.splitOn '*' := by
      rw [hsplit]
      exact List.mem_cons_of_mem first (List.getLast_mem hne)
    exact not_mem_of_mem_splitOn hmem
  have hpieces : pattern.splitOn '*' = (first :: parts.dropLast) ++ [parts.getLast hne] := by
    rw [hsplit, List.cons_append, List.dropLast_append_getLast hne]
  rw [eq_of_splitOn_concat hpieces]
  rcases List.eq_nil_or_concat' (parts.getLast hne) with hnil | ⟨front, c, hconcat⟩
  · obtain ⟨before, hbefore⟩ : ∃ before, ((first :: parts.dropLast).flatMap fun p => p ++ ['*']) =
        before ++ ['*'] := by
      rcases List.eq_nil_or_concat' (first :: parts.dropLast) with h | ⟨front, last, h⟩
      · cases h
      · exact ⟨_, by rw [h, List.flatMap_append, List.flatMap_singleton, ← List.append_assoc]⟩
    rw [hnil, List.append_nil, hbefore, List.getLast?_concat]
    exact iff_of_true rfl rfl
  · rw [hconcat] at hlast ⊢
    rw [← List.append_assoc, List.getLast?_concat]
    refine iff_of_false (fun h => hlast ?_) (by simp)
    exact List.mem_append_right front (List.mem_singleton.mpr (Option.some.inj h).symm)

/-- A pattern matches the whole text and a beginning of it too. -/
def MatchesEarlier (pattern text : List Char) : Prop :=
  MatchesWildcards pattern text ∧
    ∃ front, front <+: text ∧ front ≠ text ∧ MatchesWildcards pattern front

section Placed

variable {first rest left : List Char} (hne : parts ≠ [])
  (hsplit : pattern.splitOn '*' = first :: parts)

include hsplit

theorem matchesWildcards_splitOn (text : List Char) :
    MatchesWildcards pattern text ↔ ∃ rest, text = first ++ rest ∧ Follow parts rest := by
  have hfree : ∀ p ∈ first :: parts, '*' ∉ p := fun p hp =>
    not_mem_of_mem_splitOn (hsplit ▸ hp)
  rw [← matchesWildcards_intercalate (hfree first List.mem_cons_self)
    fun p hp => hfree p (List.mem_cons_of_mem first hp), ← hsplit, List.intercalate_splitOn]

/-- What is located matches: a star at the end takes what is left. -/
theorem matches_of_placed (hplaced : placeFirst parts rest = some left)
    (hend : parts.getLast hne ≠ [] → left = []) : MatchesWildcards pattern (first ++ rest) := by
  obtain ⟨front, rfl, hfront⟩ := exists_follow_of_placeFirst hplaced
  refine (matchesWildcards_splitOn hsplit _).mpr ⟨front ++ left, rfl, ?_⟩
  by_cases hlast : parts.getLast hne = []
  · exact hfront.append_right hne hlast left
  · rw [hend hlast, List.append_nil]
    exact hfront

/-- Where nothing is left no beginning of the text matches, in which all would be located sooner. -/
theorem not_matchesEarlier_of_placed (hplaced : placeFirst parts rest = some []) :
    ¬ MatchesEarlier pattern (first ++ rest) := by
  rintro ⟨-, front, ⟨behind, htext⟩, hproper, hfront⟩
  obtain ⟨rest', rfl, hfollow⟩ := (matchesWildcards_splitOn hsplit front).mp hfront
  obtain ⟨left', hplaced', hsuffix⟩ := hfollow.exists_placeFirst behind
  rw [List.append_assoc] at htext
  rw [List.append_cancel_left htext, hplaced] at hplaced'
  rw [← Option.some.inj hplaced', List.suffix_nil] at hsuffix
  exact hproper (by rw [← htext, hsuffix, List.append_nil])

/-- A text that matches is located, and what is left over shows a shorter match. -/
theorem exists_placed_of_matches {text : List Char} (hmatch : MatchesWildcards pattern text) :
    ∃ rest left, text = first ++ rest ∧ placeFirst parts rest = some left ∧
      (left ≠ [] → MatchesEarlier pattern text) := by
  obtain ⟨rest, rfl, hfollow⟩ := (matchesWildcards_splitOn hsplit text).mp hmatch
  obtain ⟨left, hplaced, -⟩ := hfollow.exists_placeFirst []
  rw [List.append_nil] at hplaced
  refine ⟨rest, left, rfl, hplaced, fun hleft => ?_⟩
  obtain ⟨front, rfl, hfront⟩ := exists_follow_of_placeFirst hplaced
  refine ⟨hmatch, first ++ front, ?_, ?_,
    (matchesWildcards_splitOn hsplit _).mpr ⟨front, rfl, hfront⟩⟩
  · rw [← List.append_assoc]
    exact List.prefix_append _ left
  · rw [← List.append_assoc]
    exact fun heq => hleft (List.self_eq_append_right.mp heq)

end Placed

/-- **Wildcards.**  The matcher always has a result: every slice begins at a character.  The result
is the right one exactly where the pattern ends in a star, or where it does not match a beginning of
the text along with the text: only then is its last part located before the end. -/
theorem wildcardMatch_exact_iff {pattern : List Char} (h : '*' ∈ pattern) (text : List Char) :
    (wildcardMatchLower pattern text).isSome ∧ (MatchedExactly pattern text ↔
      (pattern.getLast? = some '*' ∨ ¬ MatchesEarlier pattern text)) := by
  obtain ⟨first, parts, hsplit, hne⟩ := exists_splitOn_star h
  obtain ⟨b, hb, hfound⟩ := wildcardMatchLower_splitOn text hne hsplit
  have hexact : MatchedExactly pattern text ↔ (b = true ↔ MatchesWildcards pattern text) := by
    constructor
    · rintro ⟨b', hb', hexact⟩
      rwa [← Option.some.inj (hb.symm.trans hb')] at hexact
    · exact fun hexact => ⟨b, hb, hexact⟩
  refine ⟨by rw [hb]; rfl, ?_⟩
  rw [hexact, getLast?_eq_star_iff hne hsplit]
  constructor
  · intro h
    by_contra hwrong
    obtain ⟨hlast, hearlier⟩ := not_or.mp hwrong
    obtain ⟨rest, left, rfl, hplaced, hend⟩ := hfound.mp (h.mpr (not_not.mp hearlier).1)
    rw [hend hlast] at hplaced
    exact hearlier (not_matchesEarlier_of_placed hsplit hplaced)
  · intro h
    constructor
    · intro htrue
      obtain ⟨rest, left, rfl, hplaced, hend⟩ := hfound.mp htrue
      exact matches_of_placed hne hsplit hplaced hend
    · intro hmatch
      obtain ⟨rest, left, htext, hplaced, hleft⟩ := exists_placed_of_matches hsplit hmatch
      refine hfound.mpr ⟨rest, left, htext, hplaced, fun hlast => ?_⟩
      by_contra hsome
      exact h.resolve_left hlast (hleft hsome)

/-- A pattern that begins with a star and names a file type. -/
theorem wildcardMatch_exact_exe : '*' ∈ "*.exe".toList ∧
    (wildcardMatchLower "*.exe".toList "mimikatz.exe".toList).isSome ∧
    (MatchedExactly "*.exe".toList "mimikatz.exe".toList ↔
      ("*.exe".toList.getLast? = some '*' ∨
        ¬ MatchesEarlier "*.exe".toList "mimikatz.exe".toList)) :=
  ⟨by decide, wildcardMatch_exact_iff (by decide) _⟩

/-- The name of an archive that is called like its type is not found. -/
theorem wildcardMatch_misses_repeated : ¬ ∀ pattern text : List Char, '*' ∈ pattern →
    MatchedExactly pattern text := by
  intro h
  obtain ⟨b, hb, hexact⟩ := h "*.zip".toList "a.zip.zip".toList (by decide)
  have hfalse : wildcardMatchLower "*.zip".toList "a.zip.zip".toList = some false := by decide
  have hmatch : MatchesWildcards "*.zip".toList "a.zip.zip".toList := by
    refine Glob.matches_star_cons.mpr ⟨"a.zip".toList, ".zip".toList, rfl, ?_⟩
    exact (Glob.matches_literal (by decide) (by decide)).mpr rfl
  obtain rfl : false = b := Option.some.inj (hfalse.symm.trans hb)
  exact absurd (hexact.mpr hmatch) Bool.false_ne_true

end Wardex.Hunt
