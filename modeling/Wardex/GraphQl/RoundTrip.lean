import Wardex.GraphQl.Selections

/-! Parsing undoes printing.  The parser counts brackets without regard for the quotes around
them and keeps the escapes of a string; queries in which neither matters are read back. -/

namespace Wardex.GraphQl

open Lib

variable {alphabet : Alphabet}

/-! Queries whose strings are without brackets are well bracketed. -/

namespace Literal

def Bracketless (v : Literal) : Prop := ∀ c ∈ ['(', ')', '{', '}'], c ∉ v.content

variable {v : Literal}

theorem mem_escape {text : List Char} {c : Char} (h : c ∈ escape text) : c = '\\' ∨ c ∈ text := by
  obtain ⟨d, hd, hc⟩ := List.mem_flatMap.mp h
  split_ifs at hc
  · rcases List.mem_cons.mp hc with rfl | hc
    · exact Or.inl rfl
    · exact Or.inr (List.mem_singleton.mp hc ▸ hd)
  · exact Or.inr (List.mem_singleton.mp hc ▸ hd)

theorem Bracketless.not_mem_print (h : v.Bracketless) {c : Char} (hc : c ∈ ['(', ')', '{', '}']) :
    c ∉ v.print := by
  have hbracket : ∀ d ∈ ['(', ')', '{', '}'],
      (d ≠ '-' ∧ d.isAlphanum = false) ∧ d ≠ '"' ∧ d ≠ '\\' :=
    List.forall_iff_forall_mem.mp (by decide)
  obtain ⟨hunquoted, hquote, hescape⟩ := hbracket c hc
  cases v with
  | number n low high => exact not_mem_unquoted (unquoted_number n low high) hunquoted
  | bool b => exact not_mem_unquoted (unquoted_bool b) hunquoted
  | string s =>
    have hbody : c ∉ escape s.toList := fun hmem =>
      (mem_escape hmem).elim hescape (h c hc)
    rw [print, List.mem_cons, List.mem_append, not_or, not_or]
    exact ⟨hquote, hbody, fun hmem => hquote (List.mem_singleton.mp hmem)⟩

end Literal

/-- No string below the field, or of its own, has a bracket. -/
def Tree.Bracketless (t : Tree alphabet) : Prop :=
  t.All fun s => ∀ arg ∈ s.args.items, arg.2.Bracketless

theorem not_mem_argText {items : List (Name alphabet × Literal)}
    (h : ∀ arg ∈ items, arg.2.Bracketless) {c : Char} (hc : c ∈ ['(', ')', '{', '}']) :
    c ∉ argText items := by
  have hother : ∀ d ∈ ['(', ')', '{', '}'],
      d ∈ [' ', ',', ':', '(', ')', '{', '}', '"'] ∧ d ∉ [':', ' '] ∧ d ∉ [',', ' '] :=
    List.forall_iff_forall_mem.mp (by decide)
  obtain ⟨hname, hcolon, hcomma⟩ := hother c hc
  have harg : ∀ arg ∈ items, c ∉ printArg arg := by
    intro arg hmem
    have hsplit : printArg arg = arg.1.chars ++ ([':', ' '] ++ arg.2.print) := rfl
    rw [hsplit, List.mem_append, List.mem_append, not_or, not_or]
    exact ⟨arg.1.not_mem hname, hcolon, (h arg hmem).not_mem_print hc⟩
  cases items with
  | nil => exact List.not_mem_nil
  | cons arg more =>
    rw [argText, argTail, List.mem_append, List.mem_flatMap, not_or]
    refine ⟨harg arg List.mem_cons_self, ?_⟩
    rintro ⟨later, hlater, hmem⟩
    rcases List.mem_append.mp (show c ∈ [',', ' '] ++ printArg later from hmem) with hmem | hmem
    · exact hcomma hmem
    · exact harg later (List.mem_cons_of_mem arg hlater) hmem

theorem balanced_setContent {ts : List (Tree alphabet)}
    (h : ∀ t ∈ ts, Balanced '{' '}' t.print) : Balanced '{' '}' (setContent ts) := by
  have hblank : Balanced '{' '}' [' '] := by decide
  refine hblank.append ?_
  induction ts with
  | nil => exact balanced_of_free List.not_mem_nil List.not_mem_nil
  | cons t ts ih =>
    have hrest := ih fun s hs => h s (List.mem_cons_of_mem t hs)
    exact (h t List.mem_cons_self).append (hblank.append hrest)

/-- The braces of a field are those of its selection set. -/
theorem Tree.balanced_print {t : Tree alphabet}
    (hargs : ∀ arg ∈ t.args.items, arg.2.Bracketless)
    (hbraces : Balanced '{' '}' (setContent t.subFields)) : Balanced '{' '}' t.print := by
  have hname : ∀ name : Name alphabet, Balanced '{' '}' name.chars := fun name =>
    balanced_of_free (name.not_mem (by decide)) (name.not_mem (by decide))
  have hblank : Balanced '{' '}' [' '] := by decide
  have halias : Balanced '{' '}' (printAlias t.aliasName) := by
    cases t.aliasName with
    | none => exact balanced_of_free List.not_mem_nil List.not_mem_nil
    | some name => exact (hname name).append (by decide)
  have hparens : Balanced '{' '}' t.args.print := by
    have hleft : Balanced '{' '}' ['('] := by decide
    have hright : Balanced '{' '}' [')'] := by decide
    rw [Args.print]
    split_ifs
    · exact balanced_of_free List.not_mem_nil List.not_mem_nil
    · exact hleft.append ((balanced_of_free (not_mem_argText hargs (by decide))
        (not_mem_argText hargs (by decide))).append hright)
  have hsub : Balanced '{' '}' (printSubFields t.subFields) := by
    rw [printSubFields]
    split_ifs
    · exact balanced_of_free List.not_mem_nil List.not_mem_nil
    · exact hblank.append (hbraces.wrap (by decide))
  rw [t.print_eq]
  exact halias.append ((hname t.field).append (hparens.append hsub))

theorem Tree.Bracketless.wellBracketed {t : Tree alphabet} (h : t.Bracketless) :
    t.All Tree.WellBracketed ∧ Balanced '{' '}' t.print := by
  induction h with
  | mk here below ih =>
    have hbraces := balanced_setContent fun s hs => (ih s hs).2
    refine ⟨.mk ⟨?_, hbraces⟩ fun s hs => (ih s hs).1, Tree.balanced_print here hbraces⟩
    exact balanced_of_free (not_mem_argText here (by decide)) (not_mem_argText here (by decide))

theorem Query.wellBracketed_of_bracketless {q : Query alphabet}
    (h : ∀ t ∈ q.selections, t.Bracketless) : q.WellBracketed where
  fields t ht := (h t ht).wellBracketed.1
  braces := balanced_setContent fun t ht => (h t ht).wellBracketed.2

/-! The round trip. -/

/-- A query that fits is read back when its strings need no escapes and its brackets are balanced
with those in strings counted. -/
theorem parseQuery_print (q : Query alphabet) (hdepth : ∀ t ∈ q.selections, t.depth < maxDepth)
    (hsize : utf8Length q.print ≤ maxQuerySize) (hbrackets : q.WellBracketed)
    (hplain : ∀ t ∈ q.selections, t.All Tree.Plain) :
    parseQuery alphabet q.print = .ok (q.parsed Literal.value) := by
  rw [q.parseQuery_read hdepth hsize hbrackets, Query.parsed_congr hplain]

def asciiAlphabet : Alphabet where
  isAlphanumeric := Char.isAlphanum
  ascii _ _ := rfl
  whiteSpace _ h := not_isAlphanum_of_isWhiteSpace h

def queryOf (t : Tree asciiAlphabet) : Query asciiAlphabet := ⟨.query, none, [t]⟩

theorem forall_mem_queryOf {p : Tree asciiAlphabet → Prop} {t : Tree asciiAlphabet} (h : p t) :
    ∀ s ∈ (queryOf t).selections, p s :=
  List.forall_mem_singleton.mpr h

def letterName : Name asciiAlphabet := ⟨['a'], by decide, List.forall_mem_singleton.mpr rfl⟩

/-- The field `a` with the argument `a` of that value. -/
def fieldWith (v : Literal) : Tree asciiAlphabet where
  field := letterName
  aliasName := none
  args := ⟨[(letterName, v)], by simp⟩
  subFields := []

theorem all_fieldWith {p : Tree asciiAlphabet → Prop} {v : Literal} (h : p (fieldWith v)) :
    (fieldWith v).All p :=
  .mk h fun _ hs => nomatch hs

/-- A field with an alias, a string full of brackets and a field below it. -/
def nestedField : Tree asciiAlphabet where
  field := letterName
  aliasName := some letterName
  args := ⟨[(letterName, .string "\x7ba, b: (c)\x7d")], by simp⟩
  subFields := [fieldWith (.number (-5) (by decide) (by decide))]

theorem parseQuery_print_nested : parseQuery asciiAlphabet (queryOf nestedField).print =
    .ok ((queryOf nestedField).parsed Literal.value) := by
  have hbrackets : nestedField.All Tree.WellBracketed :=
    .mk ⟨by decide, by decide⟩
      (List.forall_mem_singleton.mpr (all_fieldWith ⟨by decide, by decide⟩))
  have hplain : nestedField.All Tree.Plain :=
    .mk (List.forall_mem_singleton.mpr (by decide)) (List.forall_mem_singleton.mpr
      (all_fieldWith (List.forall_mem_singleton.mpr (by decide))))
  exact parseQuery_print (queryOf nestedField) (forall_mem_queryOf (by decide)) (by decide)
    ⟨forall_mem_queryOf hbrackets, by decide⟩ (forall_mem_queryOf hplain)

/-! Queries that are not read back. -/

theorem parseQuery_long (q : Query alphabet) (h : maxQuerySize < utf8Length q.print) :
    parseQuery alphabet q.print =
      .error s!"Query exceeds maximum size of {maxQuerySize} bytes" := by
  rw [parseQuery, if_pos h]

theorem parseQuery_unmatched (q : Query alphabet) (hsize : utf8Length q.print ≤ maxQuerySize)
    (h : findMatchingBrace (printSet q.selections) = none) :
    parseQuery alphabet q.print = .error "Unmatched '\x7b'" := by
  have hset : parseSelectionSet alphabet (printSet q.selections) 0 = .error "Unmatched '\x7b'" :=
    parseSelectionSet_unmatched (by decide) h
  rw [q.parseQuery_eq hsize, hset]
  rfl

/-- A field with a name of that many letters. -/
def longField (n : Nat) : Tree asciiAlphabet where
  field :=
    { chars := List.replicate (n + 1) 'a'
      nonempty := List.cons_ne_nil _ _
      valid := fun c hc => by
        rw [List.eq_of_mem_replicate hc]
        decide }
  aliasName := none
  args := ⟨[], List.nodup_nil⟩
  subFields := []

theorem length_longField (n : Nat) : n < utf8Length (queryOf (longField n)).print := by
  have hname : (longField n).field.chars.length = n + 1 := List.length_replicate
  have hlength : (longField n).field.chars.length ≤ (queryOf (longField n)).print.length := by
    rw [Query.print, queryOf, printSet, setContent, printAll, Tree.print_eq]
    simp only [List.length_append, List.length_cons]
    omega
  rw [hname] at hlength
  exact Nat.lt_of_succ_le (hlength.trans (length_le_utf8Length _))

/-- A parenthesis in a string ends the arguments, and the closing quote is met as a field. -/
theorem paren_in_string : parseQuery asciiAlphabet (queryOf (fieldWith (.string ")"))).print =
    .error "Unexpected character '\"' in selection set" := by
  have hset : parseSelectionSet asciiAlphabet (printSet [fieldWith (.string ")")]) 0 =
      .error "Unexpected character '\"' in selection set" := by
    have hcontent : skipWhitespace (setContent [fieldWith (.string ")")]) =
        skipWhitespace (letterName.chars ++ (fieldWith (.string ")")).rest []) := by decide
    have hrest : ∀ parseSet, (parseField asciiAlphabet parseSet letterName.chars
        ((fieldWith (.string ")")).rest [])).2 = "\") ".toList := fun parseSet => rfl
    rw [parseSelectionSet_printSet (by decide) (by decide), parseFields_congr _ hcontent,
      parseFields_name _ letterName fun _ hc => Tree.not_isNameChar_rest hc, hrest, parseFields]
    rfl
  rw [Query.parseQuery_eq _ (by decide)]
  exact congrArg _ hset

/-- A quote comes back with the backslash before it. -/
theorem quote_in_string : (parseQuery asciiAlphabet (queryOf (fieldWith (.string "\""))).print).map
    (fun parsed => parsed.selections.map fun s => s.args "a") =
      .ok [some (.string "\\\"")] := by
  have hbrackets : (fieldWith (.string "\"")).All Tree.WellBracketed :=
    all_fieldWith ⟨by decide, by decide⟩
  rw [Query.parseQuery_read _ (forall_mem_queryOf (by decide)) (by decide)
    ⟨forall_mem_queryOf hbrackets, by decide⟩]
  decide

/-- A long query is refused; a bracket or a quote in a string is misread. -/
theorem printed_not_read_back :
    ((longField maxQuerySize).depth < maxDepth ∧
      parseQuery asciiAlphabet (queryOf (longField maxQuerySize)).print =
        .error "Query exceeds maximum size of 102400 bytes") ∧
    ((fieldWith (.string "\x7b")).depth < maxDepth ∧
      parseQuery asciiAlphabet (queryOf (fieldWith (.string "\x7b"))).print =
        .error "Unmatched '\x7b'") ∧
    ((fieldWith (.string ")")).depth < maxDepth ∧
      parseQuery asciiAlphabet (queryOf (fieldWith (.string ")"))).print =
        .error "Unexpected character '\"' in selection set") ∧
    ((fieldWith (.string "\"")).depth < maxDepth ∧
      (parseQuery asciiAlphabet (queryOf (fieldWith (.string "\""))).print).map
        (fun parsed => parsed.selections.map fun s => s.args "a") =
          .ok [some (.string "\\\"")]) := by
  refine ⟨⟨by decide, parseQuery_long _ (length_longField maxQuerySize)⟩, ⟨by decide, ?_⟩,
    ⟨by decide, paren_in_string⟩, ⟨by decide, quote_in_string⟩⟩
  exact parseQuery_unmatched _ (by decide) (by decide)

end Wardex.GraphQl
