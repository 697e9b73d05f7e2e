import Wardex.GraphQl.RoundTrip

/-! The selection sets of a query at every depth, and which of them the parser refuses. -/

namespace Wardex.GraphQl

open Lib

section Sets

variable (alphabet : Alphabet)

/-- The selection set a field goes on with. -/
def setAfter (chars : List Char) : Option (List Char) :=
  match skipWhitespace chars with
  | '{' :: rest =>
    let split := splitClose '{' '}' 0 ('{' :: rest)
    some (split.1 ++ if split.2.isSome then ['}'] else [])
  | _ => none

def fieldSet (buf chars : List Char) : Option (List Char) :=
  setAfter (readArgs (readAlias alphabet buf chars).2).2

/-- What follows a field, whatever its selection set is read as. -/
def fieldRest (buf chars : List Char) : List Char :=
  (parseField alphabet (fun _ => []) buf chars).2

/-- The name a field begins with, and what follows it. -/
def fieldName (chars : List Char) : List Char × List Char :=
  ((skipWhitespace chars).takeWhile alphabet.isNameChar,
    (skipWhitespace chars).dropWhile alphabet.isNameChar)

/-- A field of the text has that selection set. -/
inductive HasSet : List Char → List Char → Prop
  | here {chars buf rest braceStr : List Char} (hname : fieldName alphabet chars = (buf, rest))
      (hne : buf ≠ []) (hset : fieldSet alphabet buf rest = some braceStr) : HasSet chars braceStr
  | later {chars buf rest braceStr : List Char} (hname : fieldName alphabet chars = (buf, rest))
      (hne : buf ≠ []) (hset : HasSet (fieldRest alphabet buf rest) braceStr) :
      HasSet chars braceStr

/-- The character stands where a field should begin. -/
inductive Unexpected : List Char → Char → Prop
  | here {chars rest : List Char} {c : Char} (hname : fieldName alphabet chars = ([], c :: rest)) :
      Unexpected chars c
  | later {chars buf rest : List Char} {c : Char} (hname : fieldName alphabet chars = (buf, rest))
      (hne : buf ≠ []) (hlater : Unexpected (fieldRest alphabet buf rest) c) : Unexpected chars c

/-- What stands between the braces of a set. -/
def contentOf (text : List Char) : Option (List Char) :=
  (findMatchingBrace (trim text)).map fun stop => ((trim text).take stop).drop 1

/-- The selection sets of a query, with the number of sets around each. -/
inductive SetOf (query : List Char) : List Char → Nat → Prop
  | outermost {operation : String} {rest before body : List Char} :
      parseOperation (trim query) = some (operation, rest) →
      splitOnce '{' (trim rest) = some (before, body) → SetOf query ('{' :: body) 0
  | inner {text content braceStr : List Char} {depth : Nat} :
      SetOf query text depth → contentOf text = some content →
      HasSet alphabet content braceStr → SetOf query braceStr (depth + 1)

/-- The set has a character that begins no field. -/
def Garbled (text : List Char) : Prop :=
  ∃ content c, contentOf text = some content ∧ Unexpected alphabet content c

/-- Nested too deep, or its brace unmatched, or a character in it that begins no field. -/
def Malformed (text : List Char) (depth : Nat) : Prop :=
  maxDepth ≤ depth ∨ contentOf text = none ∨ Garbled alphabet text

end Sets

section

variable {alphabet : Alphabet}

/-! ## One selection set -/

theorem parseField_rest (parseSet : List Char → List Selection) (buf chars : List Char) :
    (parseField alphabet parseSet buf chars).2 = fieldRest alphabet buf chars := by
  simp only [fieldRest, parseField, readSubFields]
  split <;> rfl

theorem map_eq_error_iff {α β ε : Type*} {f : α → β} {r : Except ε α} :
    (∃ e, r.map f = .error e) ↔ ∃ e, r = .error e := by
  cases r with
  | error e => exact ⟨fun _ => ⟨e, rfl⟩, fun _ => ⟨e, rfl⟩⟩
  | ok a =>
    constructor
    · rintro ⟨e, he⟩
      cases he
    · rintro ⟨e, he⟩
      cases he

theorem parseFields_end {parseSet : List Char → List Selection} {chars : List Char}
    (h : fieldName alphabet chars = ([], [])) : parseFields alphabet parseSet chars = .ok [] := by
  obtain ⟨hbuf, hrest⟩ := Prod.mk.inj h
  rw [parseFields, hbuf, hrest]

theorem parseFields_field {parseSet : List Char → List Selection} {chars buf rest : List Char}
    (h : fieldName alphabet chars = (buf, rest)) (hne : buf ≠ []) :
    parseFields alphabet parseSet chars =
      (parseFields alphabet parseSet (fieldRest alphabet buf rest)).map
        (List.cons (parseField alphabet parseSet buf rest).1) := by
  obtain ⟨hbuf, hrest⟩ := Prod.mk.inj h
  obtain ⟨b, more, rfl⟩ := List.exists_cons_of_ne_nil hne
  rw [parseFields, hbuf, hrest, ← parseField_rest parseSet]

/-- The fields are refused exactly when a character stands where a field should begin. -/
theorem parseFields_error_iff {parseSet : List Char → List Selection} {chars : List Char} :
    (∃ e, parseFields alphabet parseSet chars = .error e) ↔ ∃ c, Unexpected alphabet chars c := by
  fun_induction parseFields alphabet parseSet chars with
  | case1 chars start hbuf hrest =>
    have hname : fieldName alphabet chars = ([], []) := Prod.ext hbuf hrest
    constructor
    · rintro ⟨e, he⟩
      cases he
    · rintro ⟨c, hc⟩
      cases hc with
      | here h => exact absurd (hname.symm.trans h) (by simp)
      | later h hne _ => exact absurd (Prod.mk.inj (hname.symm.trans h)).1.symm hne
  | case2 chars start c rest hbuf hrest =>
    exact ⟨fun _ => ⟨c, .here (Prod.ext hbuf hrest)⟩, fun _ => ⟨_, rfl⟩⟩
  | case3 chars start b buf hbuf field ih =>
    have hname : fieldName alphabet chars = (b :: buf, start.dropWhile alphabet.isNameChar) :=
      Prod.ext hbuf rfl
    rw [map_eq_error_iff, ih, parseField_rest]
    constructor
    · rintro ⟨c, hc⟩
      exact ⟨c, .later hname (List.cons_ne_nil b buf) hc⟩
    · rintro ⟨c, hc⟩
      cases hc with
      | here h => exact absurd (Prod.mk.inj (hname.symm.trans h)).1 (List.cons_ne_nil b buf)
      | later h _ hc =>
        obtain ⟨rfl, rfl⟩ := Prod.mk.inj (hname.symm.trans h)
        exact ⟨c, hc⟩

theorem parseSelectionSet_of_content {text content : List Char} {depth : Nat}
    (hdepth : depth < maxDepth) (hbrace : (trim text).head? = some '{')
    (hcontent : contentOf text = some content) :
    parseSelectionSet alphabet text depth =
      parseFields alphabet (fun braceStr =>
        (parseSelectionSet alphabet braceStr (depth + 1)).toOption.getD []) content := by
  obtain ⟨stop, hstop, rfl⟩ := Option.map_eq_some_iff.mp hcontent
  rw [parseSelectionSet, if_neg (Nat.not_le.mpr hdepth), if_neg (not_not.mpr hbrace), hstop]

theorem parseSelectionSet_error_iff {text : List Char} {depth : Nat}
    (hbrace : (trim text).head? = some '{') :
    (∃ e, parseSelectionSet alphabet text depth = .error e) ↔ Malformed alphabet text depth := by
  rw [Malformed]
  by_cases hdepth : maxDepth ≤ depth
  · rw [parseSelectionSet, if_pos hdepth]
    exact ⟨fun _ => .inl hdepth, fun _ => ⟨_, rfl⟩⟩
  · cases hcontent : contentOf text with
    | none =>
      have hstop : findMatchingBrace (trim text) = none := Option.map_eq_none_iff.mp hcontent
      rw [parseSelectionSet, if_neg hdepth, if_neg (not_not.mpr hbrace), hstop]
      exact ⟨fun _ => .inr (.inl rfl), fun _ => ⟨_, rfl⟩⟩
    | some content =>
      rw [parseSelectionSet_of_content (Nat.not_le.mp hdepth) hbrace hcontent,
        parseFields_error_iff, Garbled, hcontent]
      constructor
      · rintro ⟨c, hc⟩
        exact .inr (.inr ⟨content, c, rfl, hc⟩)
      · rintro (h | h | ⟨content', c, h, hc⟩)
        · exact absurd h hdepth
        · cases h
        · obtain rfl := Option.some.inj h
          exact ⟨c, hc⟩

/-! ## Below the outermost set every brace is matched -/

theorem contentOf_wrap {content : List Char} (h : Balanced '{' '}' content) :
    contentOf ('{' :: (content ++ ['}'])) = some content := by
  have htrim : trim ('{' :: (content ++ ['}'])) = '{' :: (content ++ ['}']) :=
    trimWith_eq_self (bare_wrap (by decide) (by decide) content)
  have hstop : findMatchingBrace ('{' :: (content ++ ['}'])) = some ('{' :: content).length := by
    rw [findMatchingBrace, splitClose_wrap (by decide) h]
  rw [contentOf, htrim, hstop, Option.map_some, ← List.cons_append, List.take_left]
  rfl

theorem balanced_contentOf {body content : List Char} (h : contentOf ('{' :: body) = some content) :
    Balanced '{' '}' content := by
  obtain ⟨rest, htrim⟩ := exists_trimWith_cons (p := isWhiteSpace) (c := '{') (by decide) body
  rw [contentOf, trim, htrim, findMatchingBrace] at h
  rcases hsplit : splitClose '{' '}' 0 ('{' :: rest) with ⟨before, _ | behind⟩
  · rw [hsplit] at h
    cases h
  · obtain ⟨inside, rfl, rfl, hbalanced⟩ := balanced_of_splitClose (by decide) hsplit
    rw [hsplit] at h
    have hcontent : (('{' :: (inside ++ '}' :: behind)).take ('{' :: inside).length).drop 1 =
        inside := by
      rw [← List.cons_append, List.take_left]
      rfl
    exact Option.some.inj (h.symm.trans (congrArg some hcontent)) ▸ hbalanced

theorem afterArgs_suffix (buf chars : List Char) :
    (readArgs (readAlias alphabet buf chars).2).2 <:+ chars :=
  (readArgs_suffix _).trans (readAlias_suffix alphabet buf chars)

theorem fieldRest_suffix (buf chars : List Char) : fieldRest alphabet buf chars <:+ chars :=
  (readSubFields_suffix _ _).trans (afterArgs_suffix buf chars)

theorem fieldName_suffix {chars buf rest : List Char}
    (h : fieldName alphabet chars = (buf, rest)) : rest <:+ chars := by
  obtain ⟨-, rfl⟩ := Prod.mk.inj h
  exact (List.dropWhile_suffix _).trans (skipWhitespace_suffix chars)

/-- The sets of the fields of a balanced text are whole. -/
theorem HasSet.exists_balanced {chars braceStr whole : List Char}
    (h : HasSet alphabet chars braceStr) (hbalanced : Balanced '{' '}' whole)
    (hsuffix : chars <:+ whole) :
    ∃ content, braceStr = '{' :: (content ++ ['}']) ∧ Balanced '{' '}' content := by
  induction h with
  | here hname hne hset =>
    rename_i chars buf rest braceStr
    have hargs : (readArgs (readAlias alphabet buf rest).2).2 <:+ rest := afterArgs_suffix buf rest
    have hbehind := (hargs.trans (fieldName_suffix hname)).trans hsuffix
    unfold fieldSet setAfter at hset
    split at hset
    · next behind hbrace =>
      have hopen : '{' :: behind <:+ whole := hbrace ▸ (skipWhitespace_suffix _).trans hbehind
      have hsome := hbalanced.isSome_splitClose (by decide) hopen
      rcases hsplit : splitClose '{' '}' 0 ('{' :: behind) with ⟨before, _ | after⟩
      · rw [hsplit] at hsome
        cases hsome
      · obtain ⟨content, rfl, -, hinner⟩ := balanced_of_splitClose (by decide) hsplit
        rw [hsplit] at hset
        exact ⟨content, (Option.some.inj hset).symm, hinner⟩
    · cases hset
  | later hname hne hset ih =>
    exact ih ((fieldRest_suffix _ _).trans ((fieldName_suffix hname).trans hsuffix))

theorem SetOf.exists_cons {query text : List Char} {depth : Nat}
    (h : SetOf alphabet query text depth) : ∃ body, text = '{' :: body := by
  induction h with
  | outermost => exact ⟨_, rfl⟩
  | inner _ hcontent hset ih =>
    obtain ⟨body, rfl⟩ := ih
    obtain ⟨content, rfl, -⟩ :=
      hset.exists_balanced (balanced_contentOf hcontent) (List.suffix_refl _)
    exact ⟨_, rfl⟩

/-- A set inside another has its closing brace. -/
theorem SetOf.contentOf_ne_none {query text : List Char} {depth : Nat}
    (h : SetOf alphabet query text (depth + 1)) : contentOf text ≠ none := by
  cases h with
  | inner houter hcontent hset =>
    obtain ⟨body, rfl⟩ := houter.exists_cons
    obtain ⟨content, rfl, hbalanced⟩ :=
      hset.exists_balanced (balanced_contentOf hcontent) (List.suffix_refl _)
    rw [contentOf_wrap hbalanced]
    exact Option.some_ne_none content

/-! ## The query -/

theorem setOf_zero_iff {query text : List Char} :
    SetOf alphabet query text 0 ↔ ∃ operation rest before body,
      parseOperation (trim query) = some (operation, rest) ∧
        splitOnce '{' (trim rest) = some (before, body) ∧ text = '{' :: body := by
  constructor
  · intro h
    cases h with
    | outermost hoperation hsplit => exact ⟨_, _, _, _, hoperation, hsplit, rfl⟩
  · rintro ⟨operation, rest, before, body, hoperation, hsplit, rfl⟩
    exact .outermost hoperation hsplit

theorem SetOf.outermost_unique {query text other : List Char} (h : SetOf alphabet query text 0)
    (h' : SetOf alphabet query other 0) : text = other := by
  obtain ⟨_, _, _, _, hop, hsplit, rfl⟩ := setOf_zero_iff.mp h
  obtain ⟨_, _, _, _, hop', hsplit', rfl⟩ := setOf_zero_iff.mp h'
  obtain ⟨-, rfl⟩ := Prod.mk.inj (Option.some.inj (hop.symm.trans hop'))
  obtain ⟨-, rfl⟩ := Prod.mk.inj (Option.some.inj (hsplit.symm.trans hsplit'))
  rfl

theorem SetOf.exists_outermost {query text : List Char} {depth : Nat}
    (h : SetOf alphabet query text depth) : ∃ outer, SetOf alphabet query outer 0 := by
  induction h with
  | outermost hoperation hsplit => exact ⟨_, .outermost hoperation hsplit⟩
  | inner _ _ _ ih => exact ih

/-- Only the outermost set decides whether a query is refused. -/
theorem parseQuery_error_iff {query : List Char} :
    (∃ e, parseQuery alphabet query = .error e) ↔
      maxQuerySize < utf8Length query ∨
        ∀ text, SetOf alphabet query text 0 → Malformed alphabet text 0 := by
  rw [parseQuery]
  by_cases hsize : maxQuerySize < utf8Length query
  · rw [if_pos hsize]
    exact ⟨fun _ => .inl hsize, fun _ => ⟨_, rfl⟩⟩
  · rw [if_neg hsize, or_iff_right hsize]
    cases hoperation : parseOperation (trim query) with
    | none =>
      -- without an operation or a brace the query is refused and has no selection set
      refine ⟨fun _ text htext => ?_, fun _ => ⟨_, rfl⟩⟩
      obtain ⟨operation, rest, before, body, h, -⟩ := setOf_zero_iff.mp htext
      cases hoperation.symm.trans h
    | some parsed =>
      obtain ⟨operation, rest⟩ := parsed
      cases hsplit : splitOnce '{' (trim rest) with
      | none =>
        dsimp only
        rw [hsplit]
        refine ⟨fun _ text htext => ?_, fun _ => ⟨_, rfl⟩⟩
        obtain ⟨operation', rest', before, body, h, h', -⟩ := setOf_zero_iff.mp htext
        obtain ⟨-, rfl⟩ := Prod.mk.inj (Option.some.inj (hoperation.symm.trans h))
        cases hsplit.symm.trans h'
      | some parts =>
        obtain ⟨before, body⟩ := parts
        dsimp only
        rw [hsplit]
        have hbrace : (trim ('{' :: body)).head? = some '{' := by
          obtain ⟨more, hmore⟩ :=
            exists_trimWith_cons (p := isWhiteSpace) (c := '{') (by decide) body
          rw [trim, hmore]
          rfl
        -- the error of the outermost set is passed on
        have hmap : (do
              let selections ← parseSelectionSet alphabet ('{' :: body) 0
              Except.ok { operation, name := parseName before, selections } :
                Except String ParsedQuery) =
            (parseSelectionSet alphabet ('{' :: body) 0).map fun selections =>
              { operation, name := parseName before, selections } := by
          cases parseSelectionSet alphabet ('{' :: body) 0 <;> rfl
        dsimp only
        rw [hmap, map_eq_error_iff, parseSelectionSet_error_iff hbrace]
        constructor
        · intro hmalformed text htext
          rwa [htext.outermost_unique (.outermost hoperation hsplit)]
        · intro hall
          exact hall _ (.outermost hoperation hsplit)

/-- A malformed set at any depth makes the parser refuse the query exactly when the query is too
long, its outermost set is malformed, or every set below is well formed. -/
theorem malformed_refused_iff (query : List Char) :
    ((∃ text depth, SetOf alphabet query text depth ∧ Malformed alphabet text depth) →
        ∃ e, parseQuery alphabet query = .error e) ↔
      maxQuerySize < utf8Length query ∨
        (∃ text, SetOf alphabet query text 0 ∧ Malformed alphabet text 0) ∨
        ∀ text depth, SetOf alphabet query text (depth + 1) →
          depth + 1 < maxDepth ∧ ¬ Garbled alphabet text := by
  rw [parseQuery_error_iff]
  constructor
  · intro hrefused
    by_cases hsize : maxQuerySize < utf8Length query
    · exact .inl hsize
    · by_cases houter : ∃ text, SetOf alphabet query text 0 ∧ Malformed alphabet text 0
      · exact .inr (.inl houter)
      · refine .inr (.inr fun text depth htext => ?_)
        by_contra hbad
        have hmalformed : Malformed alphabet text (depth + 1) := by
          rcases not_and_or.mp hbad with hdeep | hgarbled
          · exact .inl (Nat.not_lt.mp hdeep)
          · exact .inr (.inr (not_not.mp hgarbled))
        rcases hrefused ⟨text, depth + 1, htext, hmalformed⟩ with h | h
        · exact hsize h
        · obtain ⟨outer, hout⟩ := htext.exists_outermost
          exact houter ⟨outer, hout, h outer hout⟩
  · rintro (hsize | ⟨text, htext, hmalformed⟩ | hbelow) ⟨bad, depth, hbad, hwrong⟩
    · exact .inl hsize
    · exact .inr fun outer houter => houter.outermost_unique htext ▸ hmalformed
    · cases depth with
      | zero => exact .inr fun outer houter => houter.outermost_unique hbad ▸ hwrong
      | succ depth =>
        obtain ⟨hdeep, hclean⟩ := hbelow bad depth hbad
        rcases hwrong with h | h | h
        · exact absurd h (Nat.not_le.mpr hdeep)
        · exact absurd h hbad.contentOf_ne_none
        · exact absurd h hclean

/-- A field whose selection set holds a character that begins no field. -/
def garbledBelow : List Char := "{ a { ! } }".toList

theorem parseOperation_garbledBelow :
    parseOperation (trim garbledBelow) = some ("query", garbledBelow) := by decide

theorem splitOnce_garbledBelow :
    splitOnce '{' (trim garbledBelow) = some ([], " a { ! } ".toList ++ ['}']) := by decide

theorem outermost_garbledBelow : SetOf asciiAlphabet garbledBelow garbledBelow 0 :=
  .outermost parseOperation_garbledBelow splitOnce_garbledBelow

theorem fieldName_garbledBelow :
    fieldName asciiAlphabet " a { ! } ".toList = (['a'], " { ! } ".toList) := by decide

theorem setOf_garbledBelow : SetOf asciiAlphabet garbledBelow "{ ! }".toList 1 :=
  .inner outermost_garbledBelow (by decide)
    (.here fieldName_garbledBelow (List.cons_ne_nil _ _) (by decide))

/-- The set is read as an empty one. -/
theorem garbled_set_swallowed :
    (∃ text depth, SetOf asciiAlphabet garbledBelow text depth ∧
      Malformed asciiAlphabet text depth) ∧
    parseQuery asciiAlphabet garbledBelow = .ok
      { operation := "query"
        name := none
        selections := [⟨"a", none, KeyMap.empty, []⟩] } := by
  have hname : fieldName asciiAlphabet " ! ".toList = ([], ['!', ' ']) := by decide
  have hunexpected : Unexpected asciiAlphabet " ! ".toList '!' := .here hname
  have hbelow : Malformed asciiAlphabet "{ ! }".toList 1 :=
    .inr (.inr ⟨_, '!', by decide, hunexpected⟩)
  constructor
  · exact ⟨_, 1, setOf_garbledBelow, hbelow⟩
  · obtain ⟨e, he⟩ := (parseSelectionSet_error_iff (by decide)).mpr hbelow
    have hrest : fieldName asciiAlphabet (fieldRest asciiAlphabet ['a'] " { ! } ".toList) =
        ([], []) := by decide
    have hfield : ∀ parseSet : List Char → List Selection,
        (parseField asciiAlphabet parseSet ['a'] " { ! } ".toList).1 =
          ⟨"a", none, KeyMap.empty, parseSet "{ ! }".toList⟩ := fun _ => rfl
    have hcontent : contentOf garbledBelow = some " a { ! } ".toList := by decide
    have hset : parseSelectionSet asciiAlphabet garbledBelow 0 =
        .ok [⟨"a", none, KeyMap.empty, []⟩] := by
      rw [parseSelectionSet_of_content (by decide) (by decide) hcontent,
        parseFields_field fieldName_garbledBelow (List.cons_ne_nil _ _), parseFields_end hrest,
        hfield, he]
      rfl
    have hbody : '{' :: (" a { ! } ".toList ++ ['}']) = garbledBelow := rfl
    rw [parseQuery, if_neg (by decide), parseOperation_garbledBelow]
    dsimp only
    rw [splitOnce_garbledBelow]
    dsimp only
    rw [hbody, hset]
    rfl

end

end Wardex.GraphQl
