import Wardex.GraphQl.Arguments

/-! Printed fields and selection sets are read back, and printed queries with the escapes left in
their strings. -/

namespace Wardex.GraphQl

open Lib

section

variable {alphabet : Alphabet}

theorem isSkipped_of_isNameChar {c : Char} (h : alphabet.isNameChar c) : isSkipped c = false := by
  rw [isSkipped, alphabet.isWhiteSpace_of_isNameChar h, Bool.false_or]
  exact beq_false_of_ne (alphabet.isNameChar_ne h (by decide))

theorem skipWhitespace_of_head {chars : List Char} (h : ∀ c ∈ chars.head?, isSkipped c = false) :
    skipWhitespace chars = chars := by
  cases chars with
  | nil => rfl
  | cons c rest => exact List.dropWhile_cons_of_neg (by simp [h c rfl])

theorem skipWhitespace_blank (chars : List Char) :
    skipWhitespace (' ' :: chars) = skipWhitespace chars :=
  List.dropWhile_cons_of_pos (by decide)

theorem head_skipWhitespace {chars : List Char} {c : Char}
    (h : c ∈ (skipWhitespace chars).head?) : isSkipped c = false := by
  have hnot := List.head?_dropWhile_not isSkipped chars
  rw [show chars.dropWhile isSkipped = skipWhitespace chars from rfl, Option.mem_def.mp h] at hnot
  simpa using hnot

theorem skipWhitespace_skipWhitespace (chars : List Char) :
    skipWhitespace (skipWhitespace chars) = skipWhitespace chars :=
  skipWhitespace_of_head fun _ h => head_skipWhitespace h

theorem readArgs_congr {a b : List Char} (h : skipWhitespace a = skipWhitespace b) :
    readArgs a = readArgs b := by
  rw [readArgs, readArgs, h]

theorem readSubFields_congr (parseSet : List Char → List Selection) {a b : List Char}
    (h : skipWhitespace a = skipWhitespace b) :
    readSubFields parseSet a = readSubFields parseSet b := by
  rw [readSubFields, readSubFields, h]

theorem parseFields_congr (parseSet : List Char → List Selection) {a b : List Char}
    (h : skipWhitespace a = skipWhitespace b) :
    parseFields alphabet parseSet a = parseFields alphabet parseSet b := by
  rw [parseFields, parseFields, h]

theorem parseFields_name (parseSet : List Char → List Selection) (name : Name alphabet)
    {rest : List Char} (hrest : ∀ c ∈ rest.head?, alphabet.isNameChar c = false) :
    parseFields alphabet parseSet (name.chars ++ rest) =
      (parseFields alphabet parseSet (parseField alphabet parseSet name.chars rest).2).map
        (List.cons (parseField alphabet parseSet name.chars rest).1) := by
  have hskip : skipWhitespace (name.chars ++ rest) = name.chars ++ rest :=
    skipWhitespace_of_head fun c hc => isSkipped_of_isNameChar (name.isNameChar_head rest hc)
  have htake := takeWhile_word name.valid hrest
  have hdrop := dropWhile_word name.valid hrest
  obtain ⟨c, more, hname⟩ := List.exists_cons_of_ne_nil name.nonempty
  rw [parseFields, hskip, htake, hdrop, hname]

theorem readAlias_none (field : Name alphabet) {rest : List Char}
    (h : (skipWhitespace rest).head? ≠ some ':') :
    readAlias alphabet field.chars rest = ((none, field.chars), skipWhitespace rest) := by
  unfold readAlias
  split
  · next more hmore =>
    rw [hmore] at h
    exact absurd rfl h
  · rfl

theorem readAlias_colon (buf : List Char) {chars rest : List Char}
    (h : skipWhitespace chars = ':' :: rest) : readAlias alphabet buf chars =
      ((some buf, (skipWhitespace rest).takeWhile alphabet.isNameChar),
        (skipWhitespace rest).dropWhile alphabet.isNameChar) := by
  rw [readAlias, h]
  rfl

theorem readAlias_some (name field : Name alphabet) {rest : List Char}
    (h : ∀ c ∈ rest.head?, alphabet.isNameChar c = false) :
    readAlias alphabet name.chars (':' :: ' ' :: (field.chars ++ rest)) =
      ((some name.chars, field.chars), rest) := by
  have hcolon : skipWhitespace (':' :: ' ' :: (field.chars ++ rest)) =
      ':' :: ' ' :: (field.chars ++ rest) := skipWhitespace_of_head (by simp; decide)
  have hskip : skipWhitespace (field.chars ++ rest) = field.chars ++ rest :=
    skipWhitespace_of_head fun c hc => isSkipped_of_isNameChar (field.isNameChar_head rest hc)
  rw [readAlias_colon name.chars hcolon, skipWhitespace_blank, hskip,
    takeWhile_word field.valid h, dropWhile_word field.valid h]

theorem readArgs_paren {chars rest : List Char} (h : skipWhitespace chars = '(' :: rest) :
    readArgs chars = (parseArgs (splitClose '(' ')' 1 rest).1,
      (splitClose '(' ')' 1 rest).2.getD []) := by
  rw [readArgs, h]
  rfl

theorem readArgs_print (args : Args alphabet)
    (hparens : Balanced '(' ')' (argText args.items)) {more : List Char}
    (hmore : (skipWhitespace more).head? ≠ some '(') :
    (readArgs (args.print ++ more)).1 = args.values Literal.read ∧
      skipWhitespace (readArgs (args.print ++ more)).2 = skipWhitespace more := by
  by_cases hitems : args.items = []
  · have hprint : args.print = [] := by rw [Args.print, hitems, List.isEmpty_nil, if_pos rfl]
    have hvalues : args.values Literal.read = KeyMap.empty := by
      funext key
      rw [Args.values, hitems]
      rfl
    rw [hprint, List.nil_append, readArgs, hvalues]
    split
    · next rest hrest =>
      rw [hrest] at hmore
      exact absurd rfl hmore
    · exact ⟨rfl, skipWhitespace_skipWhitespace more⟩
  · have hprint : args.print ++ more = '(' :: (argText args.items ++ ')' :: more) := by
      rw [Args.print, if_neg (by simpa using hitems), List.cons_append, List.append_assoc,
        List.singleton_append]
    have hskip : skipWhitespace ('(' :: (argText args.items ++ ')' :: more)) =
        '(' :: (argText args.items ++ ')' :: more) := skipWhitespace_of_head (by simp; decide)
    rw [hprint, readArgs_paren hskip, splitClose_inside (by decide) hparens,
      parseArgs_argText args]
    exact ⟨rfl, rfl⟩

/-- The selection set behind a field. -/
def printSubFields (ts : List (Tree alphabet)) : List Char :=
  if ts.isEmpty then [] else ' ' :: printSet ts

theorem readSubFields_brace (parseSet : List Char → List Selection) {chars rest : List Char}
    (h : skipWhitespace chars = '{' :: rest) : readSubFields parseSet chars =
      (parseSet ((splitClose '{' '}' 0 ('{' :: rest)).1 ++
        if (splitClose '{' '}' 0 ('{' :: rest)).2.isSome then ['}'] else []),
        (splitClose '{' '}' 0 ('{' :: rest)).2.getD []) := by
  rw [readSubFields, h]
  rfl

theorem readSubFields_print {parseSet : List Char → List Selection} {ts : List (Tree alphabet)}
    (hbraces : Balanced '{' '}' (setContent ts))
    (hset : ts ≠ [] → parseSet (printSet ts) = selectionsOf Literal.read ts) {more : List Char}
    (hmore : (skipWhitespace more).head? ≠ some '{') :
    (readSubFields parseSet (printSubFields ts ++ more)).1 = selectionsOf Literal.read ts ∧
      skipWhitespace (readSubFields parseSet (printSubFields ts ++ more)).2 =
        skipWhitespace more := by
  cases ts with
  | nil =>
    rw [printSubFields, List.isEmpty_nil, if_pos rfl, List.nil_append, readSubFields]
    split
    · next rest hrest =>
      rw [hrest] at hmore
      exact absurd rfl hmore
    · exact ⟨rfl, skipWhitespace_skipWhitespace more⟩
  | cons t ts =>
    have hprint : printSubFields (t :: ts) ++ more =
        ' ' :: '{' :: (setContent (t :: ts) ++ '}' :: more) := by
      rw [printSubFields, List.isEmpty_cons, if_neg Bool.false_ne_true, printSet]
      simp
    have hskip : skipWhitespace (' ' :: '{' :: (setContent (t :: ts) ++ '}' :: more)) =
        '{' :: (setContent (t :: ts) ++ '}' :: more) :=
      (skipWhitespace_blank _).trans (skipWhitespace_of_head (by simp; decide))
    rw [hprint, readSubFields_brace parseSet hskip, splitClose_wrap (by decide) hbraces]
    exact ⟨hset (List.cons_ne_nil t ts), rfl⟩

namespace Tree

variable (t : Tree alphabet)

theorem print_eq : t.print = printAlias t.aliasName ++
    (t.field.chars ++ (t.args.print ++ printSubFields t.subFields)) := by
  cases t with
  | mk field aliasName args subFields =>
    rw [Tree.print, List.append_assoc, List.append_assoc]
    rfl

theorem selection_eq (f : Literal → ArgValue) : t.selection f =
    { field := String.ofList t.field.chars
      aliasName := t.aliasName.map fun name => String.ofList name.chars
      args := t.args.values f
      subFields := selectionsOf f t.subFields } := by
  cases t with
  | mk field aliasName args subFields => rfl

theorem depth_eq : t.depth = depthOf t.subFields := by
  cases t with
  | mk field aliasName args subFields => rfl

/-- What follows the name of a field, up to the next field. -/
def rest (next : List Char) : List Char :=
  t.args.print ++ (printSubFields t.subFields ++ ' ' :: next)

theorem print_append (next : List Char) :
    t.print ++ ' ' :: next = printAlias t.aliasName ++ (t.field.chars ++ t.rest next) := by
  rw [print_eq, rest]
  simp only [List.append_assoc]

theorem isNameChar_head {more : List Char} {c : Char} (h : c ∈ (t.print ++ more).head?) :
    alphabet.isNameChar c := by
  rw [print_eq, List.append_assoc] at h
  cases halias : t.aliasName with
  | none =>
    rw [halias, printAlias, List.nil_append, List.append_assoc] at h
    exact t.field.isNameChar_head _ h
  | some name =>
    rw [halias, printAlias, List.append_assoc] at h
    exact name.isNameChar_head _ h

variable {t} {next : List Char}

theorem head_rest {c : Char} (h : c ∈ (t.rest next).head?) : c = '(' ∨ c = ' ' := by
  rw [rest, Args.print, printSubFields] at h
  split_ifs at h
  · exact Or.inr (Option.some.inj h).symm
  · exact Or.inr (Option.some.inj h).symm
  · exact Or.inl (Option.some.inj h).symm
  · exact Or.inl (Option.some.inj h).symm

theorem not_isNameChar_rest {c : Char} (h : c ∈ (t.rest next).head?) :
    alphabet.isNameChar c = false := by
  rcases head_rest h with rfl | rfl
  · exact alphabet.not_isNameChar (by decide)
  · exact alphabet.not_isNameChar (by decide)

end Tree

theorem skipWhitespace_next {next : List Char} (hnext : ∀ c ∈ next.head?, alphabet.isNameChar c) :
    skipWhitespace (' ' :: next) = next :=
  (skipWhitespace_blank next).trans
    (skipWhitespace_of_head fun c hc => isSkipped_of_isNameChar (hnext c hc))

theorem head_printSubFields {ts : List (Tree alphabet)} {next : List Char}
    (hnext : ∀ c ∈ next.head?, alphabet.isNameChar c) {c : Char}
    (h : c ∈ (skipWhitespace (printSubFields ts ++ ' ' :: next)).head?) :
    c = '{' ∨ alphabet.isNameChar c := by
  rw [printSubFields] at h
  split_ifs at h
  · rw [List.nil_append, skipWhitespace_next hnext] at h
    exact Or.inr (hnext c h)
  · have hskip : skipWhitespace (' ' :: printSet ts ++ ' ' :: next) = printSet ts ++ ' ' :: next :=
      (skipWhitespace_blank _).trans (skipWhitespace_of_head (by simp [printSet]; decide))
    rw [hskip] at h
    exact Or.inl (Option.some.inj h).symm

theorem Tree.head_skip_rest {t : Tree alphabet} {next : List Char}
    (hnext : ∀ c ∈ next.head?, alphabet.isNameChar c) {c : Char}
    (h : c ∈ (skipWhitespace (t.rest next)).head?) :
    c = '(' ∨ c = '{' ∨ alphabet.isNameChar c := by
  rw [Tree.rest, Args.print] at h
  split_ifs at h
  · exact Or.inr (head_printSubFields hnext h)
  · rw [skipWhitespace_of_head (by simp; decide)] at h
    exact Or.inl (Option.some.inj h).symm

/-- The selection set below the field, if there is one, is read back. -/
def ReadsBelow (parseSet : List Char → List Selection) (t : Tree alphabet) : Prop :=
  t.subFields ≠ [] → parseSet (printSet t.subFields) = selectionsOf Literal.read t.subFields

/-- A printed field is read up to the next one. -/
theorem parseField_print {t : Tree alphabet} {parseSet : List Char → List Selection}
    (hbrackets : t.WellBracketed) (hset : ReadsBelow parseSet t) {next : List Char}
    (hnext : ∀ c ∈ next.head?, alphabet.isNameChar c) {buf chars after : List Char}
    (hread : readAlias alphabet buf chars =
      ((t.aliasName.map Name.chars, t.field.chars), after))
    (hafter : skipWhitespace after = skipWhitespace (t.rest next)) :
    (parseField alphabet parseSet buf chars).1 = t.selection Literal.read ∧
      skipWhitespace (parseField alphabet parseSet buf chars).2 = next := by
  have hparen : (skipWhitespace (printSubFields t.subFields ++ ' ' :: next)).head? ≠ some '(' := by
    intro hhead
    rcases head_printSubFields hnext hhead with h | h
    · exact absurd h (by decide)
    · exact alphabet.isNameChar_ne h (by decide) rfl
  have hbrace : (skipWhitespace (' ' :: next)).head? ≠ some '{' := by
    intro hhead
    rw [skipWhitespace_next hnext] at hhead
    exact alphabet.isNameChar_ne (hnext '{' hhead) (by decide) rfl
  obtain ⟨hargs, hargsRest⟩ := readArgs_print t.args hbrackets.parens hparen
  obtain ⟨hsub, hsubRest⟩ := readSubFields_print hbrackets.braces hset hbrace
  rw [← Tree.rest, ← readArgs_congr hafter] at hargs hargsRest
  rw [← readSubFields_congr parseSet hargsRest] at hsub hsubRest
  constructor
  · rw [parseField, t.selection_eq]
    dsimp only
    rw [hread, hargs, hsub, Option.map_map]
    rfl
  · rw [parseField]
    dsimp only
    rw [hread, hsubRest, skipWhitespace_next hnext]

theorem parseFields_print {t : Tree alphabet} {parseSet : List Char → List Selection}
    (hbrackets : t.WellBracketed) (hset : ReadsBelow parseSet t) {next : List Char}
    (hnext : ∀ c ∈ next.head?, alphabet.isNameChar c) :
    parseFields alphabet parseSet (t.print ++ ' ' :: next) =
      (parseFields alphabet parseSet next).map (List.cons (t.selection Literal.read)) := by
  have hlater : ∀ {a : List Char}, skipWhitespace a = next →
      parseFields alphabet parseSet a = parseFields alphabet parseSet next := by
    intro a ha
    refine parseFields_congr parseSet (ha.trans ?_)
    exact (skipWhitespace_of_head fun c hc => isSkipped_of_isNameChar (hnext c hc)).symm
  rw [t.print_append]
  cases halias : t.aliasName with
  | none =>
    have hcolon : (skipWhitespace (t.rest next)).head? ≠ some ':' := by
      intro hhead
      rcases Tree.head_skip_rest hnext hhead with h | h | h
      · exact absurd h (by decide)
      · exact absurd h (by decide)
      · exact alphabet.isNameChar_ne h (by decide) rfl
    have hread : readAlias alphabet t.field.chars (t.rest next) =
        ((t.aliasName.map Name.chars, t.field.chars), skipWhitespace (t.rest next)) := by
      rw [readAlias_none t.field hcolon, halias]
      rfl
    obtain ⟨hfield, hrest⟩ := parseField_print hbrackets hset hnext hread
      (skipWhitespace_skipWhitespace _)
    rw [printAlias, List.nil_append,
      parseFields_name parseSet t.field fun _ hc => Tree.not_isNameChar_rest hc, hfield,
      hlater hrest]
  | some name =>
    have hread : readAlias alphabet name.chars (':' :: ' ' :: (t.field.chars ++ t.rest next)) =
        ((t.aliasName.map Name.chars, t.field.chars), t.rest next) := by
      rw [readAlias_some name t.field fun _ hc => Tree.not_isNameChar_rest hc, halias]
      rfl
    have hsplit : printAlias (some name) ++ (t.field.chars ++ t.rest next) =
        name.chars ++ ':' :: ' ' :: (t.field.chars ++ t.rest next) := by
      rw [printAlias, List.append_assoc]
      rfl
    have hcolon : ∀ c ∈ (':' :: ' ' :: (t.field.chars ++ t.rest next)).head?,
        alphabet.isNameChar c = false := by
      intro c hc
      rw [← Option.some.inj hc]
      exact alphabet.not_isNameChar (by decide)
    obtain ⟨hfield, hrest⟩ := parseField_print hbrackets hset hnext hread rfl
    rw [hsplit, parseFields_name parseSet name hcolon, hfield, hlater hrest]

theorem isNameChar_head_printAll {ts : List (Tree alphabet)} {c : Char}
    (h : c ∈ (printAll ts).head?) : alphabet.isNameChar c := by
  cases ts with
  | nil => cases h
  | cons t ts =>
    rw [printAll] at h
    exact t.isNameChar_head h

theorem parseFields_printAll {ts : List (Tree alphabet)} {parseSet : List Char → List Selection}
    (hbrackets : ∀ t ∈ ts, t.WellBracketed) (hset : ∀ t ∈ ts, ReadsBelow parseSet t) :
    parseFields alphabet parseSet (printAll ts) = .ok (selectionsOf Literal.read ts) := by
  induction ts with
  | nil =>
    rw [printAll, parseFields]
    rfl
  | cons t ts ih =>
    have hrest := ih (fun s hs => hbrackets s (List.mem_cons_of_mem t hs))
      fun s hs => hset s (List.mem_cons_of_mem t hs)
    rw [printAll, parseFields_print (hbrackets t List.mem_cons_self) (hset t List.mem_cons_self)
      fun _ hc => isNameChar_head_printAll hc, hrest, selectionsOf]
    rfl

/-! Selection sets. -/

theorem depth_lt_depthOf {ts : List (Tree alphabet)} {t : Tree alphabet} (h : t ∈ ts) :
    t.depth < depthOf ts := by
  induction ts with
  | nil => cases h
  | cons s ts ih =>
    rw [depthOf]
    rcases List.mem_cons.mp h with rfl | h
    · exact Nat.lt_of_lt_of_le (Nat.lt_succ_self _) (Nat.le_max_left _ _)
    · exact (ih h).trans_le (Nat.le_max_right _ _)

theorem Tree.All.here {p : Tree alphabet → Prop} {t : Tree alphabet} (h : t.All p) : p t := by
  cases h with
  | mk here below => exact here

theorem Tree.All.of_mem {p : Tree alphabet → Prop} {t s : Tree alphabet} (h : t.All p)
    (hs : s ∈ t.subFields) : s.All p := by
  cases h with
  | mk here below => exact below s hs

theorem findMatchingBrace_printSet {ts : List (Tree alphabet)}
    (h : Balanced '{' '}' (setContent ts)) :
    findMatchingBrace (printSet ts) = some ('{' :: setContent ts).length := by
  rw [findMatchingBrace, printSet, splitClose_wrap (by decide) h]

theorem trim_printSet (ts : List (Tree alphabet)) : trim (printSet ts) = printSet ts :=
  trimWith_eq_self (bare_wrap (by decide) (by decide) (setContent ts))

theorem parseSelectionSet_unmatched {ts : List (Tree alphabet)} {depth : Nat}
    (hdepth : depth < maxDepth) (h : findMatchingBrace (printSet ts) = none) :
    parseSelectionSet alphabet (printSet ts) depth = .error "Unmatched '\x7b'" := by
  have hbrace : (printSet ts).head? = some '{' := rfl
  rw [parseSelectionSet, if_neg (Nat.not_le.mpr hdepth), trim_printSet,
    if_neg (not_not.mpr hbrace), h]

/-- A selection set is read in one piece, and what is in it one level deeper. -/
theorem parseSelectionSet_printSet {ts : List (Tree alphabet)} {depth : Nat}
    (hdepth : depth < maxDepth) (h : Balanced '{' '}' (setContent ts)) :
    parseSelectionSet alphabet (printSet ts) depth =
      parseFields alphabet (fun braceStr =>
        (parseSelectionSet alphabet braceStr (depth + 1)).toOption.getD []) (setContent ts) := by
  have hbrace : (printSet ts).head? = some '{' := rfl
  have hinner : ((printSet ts).take ('{' :: setContent ts).length).drop 1 = setContent ts := by
    rw [printSet, ← List.cons_append, List.take_left]
    rfl
  rw [parseSelectionSet, if_neg (Nat.not_le.mpr hdepth), trim_printSet,
    if_neg (not_not.mpr hbrace), findMatchingBrace_printSet h]
  dsimp only
  rw [hinner]

theorem parseSelectionSet_print {k depth : Nat} {ts : List (Tree alphabet)}
    (hk : depth + k = maxDepth) (hpos : 0 < k) (hdepth : ∀ t ∈ ts, t.depth < k)
    (hbrackets : ∀ t ∈ ts, t.All Tree.WellBracketed) (hbraces : Balanced '{' '}' (setContent ts)) :
    parseSelectionSet alphabet (printSet ts) depth = .ok (selectionsOf Literal.read ts) := by
  induction k generalizing depth ts with
  | zero => exact absurd hpos (Nat.lt_irrefl 0)
  | succ k ih =>
    have hlt : depth < maxDepth := by omega
    have hcontent : parseFields alphabet (fun braceStr =>
        (parseSelectionSet alphabet braceStr (depth + 1)).toOption.getD []) (setContent ts) =
        parseFields alphabet (fun braceStr =>
          (parseSelectionSet alphabet braceStr (depth + 1)).toOption.getD []) (printAll ts) :=
      parseFields_congr _ (skipWhitespace_blank _)
    rw [parseSelectionSet_printSet hlt hbraces, hcontent]
    refine parseFields_printAll (fun t ht => (hbrackets t ht).here) fun t ht hne => ?_
    -- a set below the field is nested less deep than the field allows
    have hlevel : depthOf t.subFields ≤ k := by
      rw [← t.depth_eq]
      exact Nat.lt_succ_iff.mp (hdepth t ht)
    obtain ⟨s, hs⟩ := List.exists_mem_of_ne_nil _ hne
    have hsub : parseSelectionSet alphabet (printSet t.subFields) (depth + 1) =
        .ok (selectionsOf Literal.read t.subFields) :=
      ih (by omega) ((Nat.zero_le _).trans_lt ((depth_lt_depthOf hs).trans_le hlevel))
        (fun u hu => (depth_lt_depthOf hu).trans_le hlevel) (fun u hu => (hbrackets t ht).of_mem hu)
        (hbrackets t ht).here.braces
    rw [hsub]
    rfl

end

/-! ## Queries -/

variable {alphabet : Alphabet}

theorem printSet_append_bare {front : List Char} (hne : front ≠ [])
    (hfront : ∀ c ∈ front.head?, isWhiteSpace c = false) (ts : List (Tree alphabet)) :
    Bare isWhiteSpace (front ++ printSet ts) := by
  refine bare_append hne (List.cons_ne_nil _ _) hfront ?_
  exact (bare_wrap (by decide) (by decide) (setContent ts)).2

theorem parseOperation_keyword (operation : Operation) (rest : List Char) :
    parseOperation (operation.keyword.toList ++ rest) = some (operation.keyword, rest) := by
  cases operation with
  | query =>
    have hmutation : ¬"mutation".toList <+: Operation.query.keyword.toList ++ rest := by
      intro hprefix
      obtain ⟨more, hmore⟩ := hprefix
      exact absurd (List.cons.inj hmore).1 (by decide)
    have hquery : "query".toList <+: Operation.query.keyword.toList ++ rest :=
      List.prefix_append _ rest
    rw [parseOperation, if_neg hmutation, if_pos hquery]
    exact congrArg (fun text => some ("query", text)) List.drop_left
  | mutation =>
    have hmutation : "mutation".toList <+: Operation.mutation.keyword.toList ++ rest :=
      List.prefix_append _ rest
    rw [parseOperation, if_pos hmutation]
    exact congrArg (fun text => some ("mutation", text)) List.drop_left

theorem parseName_name (name : Name alphabet) :
    parseName (name.chars ++ [' ']) = some (String.ofList name.chars) := by
  have htrim : trim (name.chars ++ [' ']) = name.chars := by
    have hwrap : trim (' ' :: (name.chars ++ [' '])) = name.chars :=
      trimWith_wrap (by decide) name.bare
    exact (trim_blank _).symm.trans hwrap
  have htake : name.chars.takeWhile (· != '(') = name.chars := by
    refine List.takeWhile_eq_self_iff.mpr fun c hc => bne_iff_ne.mpr fun heq => ?_
    exact name.not_mem (c := '(') (by decide) (heq ▸ hc)
  have hbare : trim name.chars = name.chars := trimWith_eq_self name.bare
  rw [parseName, htrim]
  dsimp only
  rw [if_neg name.nonempty, htake, hbare, if_neg name.nonempty]

namespace Query

variable (q : Query alphabet)

theorem trim_print : trim q.print = q.print := by
  have hkeyword : q.operation.keyword.toList ≠ [] ∧
      ∀ c ∈ q.operation.keyword.toList.head?, isWhiteSpace c = false := by
    cases q.operation with
    | query => exact ⟨by decide, by rintro c ⟨⟩; rfl⟩
    | mutation => exact ⟨by decide, by rintro c ⟨⟩; rfl⟩
  have hprint : q.print = (q.operation.keyword.toList ++ q.header) ++ printSet q.selections := by
    rw [print, List.append_assoc]
  rw [hprint]
  refine trimWith_eq_self (printSet_append_bare (by simp [hkeyword.1]) ?_ q.selections)
  rw [List.head?_append_of_ne_nil _ hkeyword.1]
  exact hkeyword.2

/-- The name stands before the first brace, and the selection set begins there. -/
theorem splitOnce_header : ∃ before,
    parseName before = q.name.map (fun name => String.ofList name.chars) ∧
    splitOnce '{' (trim (q.header ++ printSet q.selections)) =
      some (before, setContent q.selections ++ ['}']) := by
  rw [header]
  cases q.name with
  | none =>
    have htrim : trim (' ' :: printSet q.selections) = printSet q.selections :=
      (trim_blank _).trans (trim_printSet q.selections)
    refine ⟨[], rfl, ?_⟩
    dsimp only
    rw [List.singleton_append, htrim]
    exact splitOnce_append List.not_mem_nil _
  | some name =>
    have hbare : Bare isWhiteSpace ((name.chars ++ [' ']) ++ printSet q.selections) := by
      refine printSet_append_bare (by simp) ?_ q.selections
      rw [name.head?_append]
      exact name.bare.1
    have htrim : trim (' ' :: (name.chars ++ [' ']) ++ printSet q.selections) =
        (name.chars ++ [' ']) ++ printSet q.selections :=
      (trim_blank _).trans (trimWith_eq_self hbare)
    have hbrace : '{' ∉ name.chars ++ [' '] := by
      rw [List.mem_append, not_or]
      exact ⟨name.not_mem (by decide), by decide⟩
    refine ⟨name.chars ++ [' '], parseName_name name, ?_⟩
    dsimp only
    rw [htrim]
    exact splitOnce_append hbrace _

/-- The operation and the name are always read back; the rest is up to the selection set. -/
theorem parseQuery_eq (hsize : utf8Length q.print ≤ maxQuerySize) :
    parseQuery alphabet q.print =
      (parseSelectionSet alphabet (printSet q.selections) 0).map fun selections =>
        { operation := q.operation.keyword
          name := q.name.map fun name => String.ofList name.chars
          selections := selections } := by
  obtain ⟨before, hname, hsplit⟩ := q.splitOnce_header
  rw [parseQuery, if_neg (Nat.not_lt.mpr hsize), q.trim_print, Query.print,
    parseOperation_keyword]
  dsimp only
  rw [hsplit]
  dsimp only
  rw [hname, ← printSet]
  cases parseSelectionSet alphabet (printSet q.selections) 0 with
  | error message => rfl
  | ok selections => rfl

/-- A query with balanced brackets is read with the escapes left in its strings. -/
theorem parseQuery_read (hdepth : ∀ t ∈ q.selections, t.depth < maxDepth)
    (hsize : utf8Length q.print ≤ maxQuerySize) (hbrackets : q.WellBracketed) :
    parseQuery alphabet q.print = .ok (q.parsed Literal.read) := by
  have hset : parseSelectionSet alphabet (printSet q.selections) 0 =
      .ok (selectionsOf Literal.read q.selections) :=
    parseSelectionSet_print (Nat.zero_add maxDepth) (by decide) hdepth hbrackets.fields
      hbrackets.braces
  rw [q.parseQuery_eq hsize, hset]
  rfl

end Query

/-! Strings without escapes. -/

theorem Args.values_congr {args : Args alphabet} {f g : Literal → ArgValue}
    (h : ∀ arg ∈ args.items, f arg.2 = g arg.2) : args.values f = args.values g := by
  funext key
  rw [values, values]
  refine Option.map_congr fun arg harg => h arg ?_
  exact List.mem_of_find?_eq_some harg

theorem selectionsOf_congr {ts : List (Tree alphabet)} {f g : Literal → ArgValue}
    (h : ∀ t ∈ ts, t.selection f = t.selection g) : selectionsOf f ts = selectionsOf g ts := by
  induction ts with
  | nil => rfl
  | cons t ts ih =>
    have hrest := ih fun s hs => h s (List.mem_cons_of_mem t hs)
    rw [selectionsOf, selectionsOf, h t List.mem_cons_self, hrest]

theorem Tree.selection_congr {t : Tree alphabet} {f g : Literal → ArgValue}
    (h : t.All fun s => ∀ arg ∈ s.args.items, f arg.2 = g arg.2) :
    t.selection f = t.selection g := by
  induction h with
  | @mk t here below ih =>
    have hsub : selectionsOf f t.subFields = selectionsOf g t.subFields := selectionsOf_congr ih
    rw [t.selection_eq, t.selection_eq, Args.values_congr here, hsub]

theorem Tree.All.mono {p p' : Tree alphabet → Prop} {t : Tree alphabet} (h : t.All p)
    (himp : ∀ s, p s → p' s) : t.All p' := by
  induction h with
  | mk here below ih => exact .mk (himp _ here) ih

theorem Query.parsed_congr {q : Query alphabet}
    (h : ∀ t ∈ q.selections, t.All Tree.Plain) :
    q.parsed Literal.read = q.parsed Literal.value := by
  have hset : selectionsOf Literal.read q.selections = selectionsOf Literal.value q.selections :=
    selectionsOf_congr fun t ht => Tree.selection_congr <| (h t ht).mono fun s hs arg harg =>
      (hs arg harg).read_eq
  rw [parsed, parsed, hset]

end Wardex.GraphQl
