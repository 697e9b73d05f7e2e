import Wardex.Hunt.Grammar

/-! Which predicates are read back when they are written out in full. -/

namespace Wardex.Hunt

open Wardex.Lib

/-! ### Writing -/

/-- A predicate with free texts and patterns in quotes, and parentheses around every `AND`, `OR`
and `NOT`. -/
def printed : HuntPredicate → List Char
  | .fieldMatch field pattern => field.toList ++ ':' :: '"' :: (pattern.toList ++ ['"'])
  | .freeText text => '"' :: (text.toList ++ ['"'])
  | .and left right => '(' :: (printed left ++ (" AND ".toList ++ (printed right ++ [')'])))
  | .or left right => '(' :: (printed left ++ (" OR ".toList ++ (printed right ++ [')'])))
  | .not inner => '(' :: ("NOT ".toList ++ (printed inner ++ [')']))

def HuntPredicate.print (p : HuntPredicate) : String := String.ofList (printed p)

/-- A character of the name of a field. -/
def isFieldChar (c : Char) : Bool := isWordChar c && c != ':' && c != '"'

/-- Letters, digits and underscores are such characters. -/
theorem isFieldChar_of_alphanum {c : Char} (h : c.isAlphanum ∨ c = '_') : isFieldChar c := by
  rcases h with h | rfl
  · have hblank : isWhiteSpace c = false := by
      by_contra hc
      rw [not_isAlphanum_of_isWhiteSpace (by simpa using hc)] at h
      exact absurd h Bool.false_ne_true
    have hne {d : Char} (hd : d.isAlphanum = false) : c ≠ d := by
      rintro rfl
      rw [hd] at h
      exact absurd h Bool.false_ne_true
    have hl : c ≠ '(' := hne (by decide)
    have hr : c ≠ ')' := hne (by decide)
    have hcolon : c ≠ ':' := hne (by decide)
    have hquote : c ≠ '"' := hne (by decide)
    simp [isFieldChar, isWordChar, hblank, hl, hr, hcolon, hquote]
  · decide

/-- Fields are words, and no text or pattern has a quote. -/
def HuntPredicate.Printable : HuntPredicate → Prop
  | .fieldMatch field pattern =>
    field.toList ≠ [] ∧ (∀ c ∈ field.toList, isFieldChar c) ∧ '"' ∉ pattern.toList
  | .freeText text => '"' ∉ text.toList
  | .and left right | .or left right => left.Printable ∧ right.Printable
  | .not inner => inner.Printable

/-- Every pattern is a word, and no single quote stands at its edges. -/
def HuntPredicate.Clean : HuntPredicate → Prop
  | .fieldMatch _ pattern =>
    (∀ c ∈ pattern.toList, isWordChar c) ∧ Bare (· == '\'') pattern.toList
  | .freeText _ => True
  | .and left right | .or left right => left.Clean ∧ right.Clean
  | .not inner => inner.Clean

/-- The tokens of a predicate that is written out. -/
def printedTokens : HuntPredicate → List HuntToken
  | .fieldMatch field pattern => [.fieldValue field pattern]
  | .freeText text => [.word text]
  | .and left right => .lParen :: (printedTokens left ++ .and :: (printedTokens right ++ [.rParen]))
  | .or left right => .lParen :: (printedTokens left ++ .or :: (printedTokens right ++ [.rParen]))
  | .not inner => .lParen :: .not :: (printedTokens inner ++ [.rParen])

theorem derives_printedTokens (p : HuntPredicate) : Derives .operand (printedTokens p) p := by
  induction p with
  | fieldMatch field pattern => exact .fieldValue
  | freeText text => exact .word
  | and left right ihl ihr =>
    have hboth := Derives.and (.operand ihl) ihr
    have hparens := Derives.parens (.conjunction hboth)
    simpa [printedTokens] using hparens
  | or left right ihl ihr =>
    have hboth := Derives.or (.conjunction (.operand ihl)) (.operand ihr)
    have hparens := Derives.parens hboth
    simpa [printedTokens] using hparens
  | not inner ih => exact Derives.parens (.conjunction (.operand (.not ih)))

/-! ### Tokens of a text -/

/-- What can follow a word: white space, a parenthesis or nothing. -/
def EndsWord (rest : List Char) : Prop := ∀ c ∈ rest.head?, isWordChar c = false

theorem tokenizeHunt_blank {c : Char} (hc : isWhiteSpace c = true) (rest : List Char) :
    tokenizeHunt (c :: rest) = tokenizeHunt rest := by
  rw [tokenizeHunt_cons, if_pos hc]

theorem tokenizeHunt_lParen (rest : List Char) :
    tokenizeHunt ('(' :: rest) = .lParen :: tokenizeHunt rest := by
  rw [tokenizeHunt_cons, if_neg (by decide), if_pos rfl]

theorem tokenizeHunt_rParen (rest : List Char) :
    tokenizeHunt (')' :: rest) = .rParen :: tokenizeHunt rest := by
  rw [tokenizeHunt_cons, if_neg (by decide), if_neg (by decide), if_pos rfl]

/-- A text in quotes is one token, whatever follows it. -/
theorem tokenizeHunt_quoted {text : List Char} (h : '"' ∉ text) (rest : List Char) :
    tokenizeHunt ('"' :: (text ++ '"' :: rest)) =
      .word (String.ofList text) :: tokenizeHunt rest := by
  have htext : ∀ c ∈ text, decide (c ≠ '"') = true :=
    fun c hc => decide_eq_true fun heq => h (heq ▸ hc)
  have hquote : ∀ c ∈ ('"' :: rest).head?, decide (c ≠ '"') = false := by simp
  rw [tokenizeHunt_cons, if_neg (by decide), if_neg (by decide), if_neg (by decide), if_pos rfl,
    takeWhile_word htext hquote, dropWhile_word htext hquote, List.tail_cons]

/-- Any other token is the word up to where its characters end. -/
theorem tokenizeHunt_word {c : Char} (hc : isWordChar c = true) (hquote : c ≠ '"')
    (rest : List Char) :
    tokenizeHunt (c :: rest) =
      wordToken (c :: rest.takeWhile isWordChar) :: tokenizeHunt (rest.dropWhile isWordChar) := by
  simp only [isWordChar, Bool.not_eq_true', Bool.or_eq_false_iff, beq_eq_false_iff_ne] at hc
  obtain ⟨⟨hblank, hl⟩, hr⟩ := hc
  rw [tokenizeHunt_cons, if_neg (by simp [hblank]), if_neg hl, if_neg hr, if_neg hquote]

theorem isWordChar_of_isFieldChar {c : Char} (h : isFieldChar c) : isWordChar c := by
  simp only [isFieldChar, Bool.and_eq_true] at h
  exact h.1.1

/-- A word with a colon is no keyword. -/
theorem wordToken_field {field : List Char} (h : ':' ∉ field) (value : List Char) :
    wordToken (field ++ ':' :: value) = .fieldValue (String.ofList field)
      (String.ofList (trimMatches '\'' (trimMatches '"' value))) := by
  have hcolon : ':' ∈ (field ++ ':' :: value).map Char.toUpper :=
    List.mem_map.mpr ⟨':', List.mem_append_right _ List.mem_cons_self, rfl⟩
  have hkeyword {keyword : String} (hk : ':' ∉ keyword.toList) :
      (field ++ ':' :: value).map Char.toUpper ≠ keyword.toList := fun heq => hk (heq ▸ hcolon)
  unfold wordToken
  simp only [if_neg (hkeyword (show ':' ∉ "AND".toList by decide)),
    if_neg (hkeyword (show ':' ∉ "OR".toList by decide)),
    if_neg (hkeyword (show ':' ∉ "NOT".toList by decide)), splitOnce_append h]

theorem tokenizeHunt_field {field : List Char} (hne : field ≠ [])
    (hfield : ∀ c ∈ field, isFieldChar c) (value : List Char) :
    tokenizeHunt (field ++ ':' :: value) =
      .fieldValue (String.ofList field)
          (String.ofList (trimMatches '\'' (trimMatches '"' (value.takeWhile isWordChar)))) ::
        tokenizeHunt (value.dropWhile isWordChar) := by
  obtain ⟨c, name, rfl⟩ := List.exists_cons_of_ne_nil hne
  have hc : isFieldChar c := hfield c List.mem_cons_self
  have hquote : c ≠ '"' := by
    rintro rfl
    exact absurd hc (by decide)
  have hname : ∀ d ∈ name, isWordChar d :=
    fun d hd => isWordChar_of_isFieldChar (hfield d (List.mem_cons_of_mem c hd))
  have hcolon : isWordChar ':' := by decide
  have hcolonField : ':' ∉ c :: name := fun hmem => absurd (hfield ':' hmem) (by decide)
  rw [List.cons_append, tokenizeHunt_word (isWordChar_of_isFieldChar hc) hquote,
    List.takeWhile_append_of_pos hname, List.dropWhile_append_of_pos hname,
    List.takeWhile_cons_of_pos hcolon, List.dropWhile_cons_of_pos hcolon, ← List.cons_append,
    wordToken_field hcolonField]

theorem tokenizeHunt_and (rest : List Char) :
    tokenizeHunt (" AND ".toList ++ rest) = .and :: tokenizeHunt rest := by
  show tokenizeHunt (' ' :: 'A' :: 'N' :: 'D' :: ' ' :: rest) = _
  have hword : ('N' :: 'D' :: ' ' :: rest).takeWhile isWordChar = ['N', 'D'] := rfl
  have hrest : ('N' :: 'D' :: ' ' :: rest).dropWhile isWordChar = ' ' :: rest := rfl
  have htoken : wordToken ['A', 'N', 'D'] = .and := by decide
  rw [tokenizeHunt_blank (by decide), tokenizeHunt_word (by decide) (by decide), hword, hrest,
    htoken, tokenizeHunt_blank (by decide)]

theorem tokenizeHunt_or (rest : List Char) :
    tokenizeHunt (" OR ".toList ++ rest) = .or :: tokenizeHunt rest := by
  show tokenizeHunt (' ' :: 'O' :: 'R' :: ' ' :: rest) = _
  have hword : ('R' :: ' ' :: rest).takeWhile isWordChar = ['R'] := rfl
  have hrest : ('R' :: ' ' :: rest).dropWhile isWordChar = ' ' :: rest := rfl
  have htoken : wordToken ['O', 'R'] = .or := by decide
  rw [tokenizeHunt_blank (by decide), tokenizeHunt_word (by decide) (by decide), hword, hrest,
    htoken, tokenizeHunt_blank (by decide)]

theorem tokenizeHunt_not (rest : List Char) :
    tokenizeHunt ("NOT ".toList ++ rest) = .not :: tokenizeHunt rest := by
  show tokenizeHunt ('N' :: 'O' :: 'T' :: ' ' :: rest) = _
  have hword : ('O' :: 'T' :: ' ' :: rest).takeWhile isWordChar = ['O', 'T'] := rfl
  have hrest : ('O' :: 'T' :: ' ' :: rest).dropWhile isWordChar = ' ' :: rest := rfl
  have htoken : wordToken ['N', 'O', 'T'] = .not := by decide
  rw [tokenizeHunt_word (by decide) (by decide), hword, hrest, htoken,
    tokenizeHunt_blank (by decide)]

/-! ### Quoted patterns -/

variable {pattern rest : List Char}

/-- A pattern in quotes is read whole if and only if it is a word and has no single quotes at its
edges. -/
theorem trimMatches_quoted (hquote : '"' ∉ pattern) (hrest : EndsWord rest) :
    trimMatches '\'' (trimMatches '"' (('"' :: (pattern ++ '"' :: rest)).takeWhile isWordChar)) =
        pattern ↔
      (∀ c ∈ pattern, isWordChar c) ∧ Bare (· == '\'') pattern := by
  have hbare : Bare (· == '"') pattern := bare_of_not_mem hquote
  have hshape : '"' :: (pattern ++ '"' :: rest) = ('"' :: (pattern ++ ['"'])) ++ rest := by simp
  have hwhole (hword : ∀ c ∈ pattern, isWordChar c) :
      ('"' :: (pattern ++ '"' :: rest)).takeWhile isWordChar = '"' :: (pattern ++ ['"']) := by
    rw [hshape]
    refine takeWhile_word (fun c hc => ?_) hrest
    rcases List.mem_cons.mp hc with rfl | hc
    · decide
    · rcases List.mem_append.mp hc with hc | hc
      · exact hword c hc
      · rw [List.mem_singleton.mp hc]
        decide
  constructor
  · intro h
    have hword : ∀ c ∈ pattern, isWordChar c := by
      intro c hc
      rw [← h] at hc
      have hinner := (trimWith_isInfix _ _).subset hc
      exact List.mem_takeWhile_imp ((trimWith_isInfix _ _).subset hinner)
    refine ⟨hword, ?_⟩
    rw [hwhole hword, trimMatches_wrap hbare] at h
    rw [← h]
    exact bare_trimWith _ _
  · rintro ⟨hword, hedges⟩
    rw [hwhole hword, trimMatches_wrap hbare, trimMatches_eq_self hedges]

theorem dropWhile_quoted (hword : ∀ c ∈ pattern, isWordChar c) (hrest : EndsWord rest) :
    ('"' :: (pattern ++ '"' :: rest)).dropWhile isWordChar = rest := by
  have hshape : '"' :: (pattern ++ '"' :: rest) = ('"' :: (pattern ++ ['"'])) ++ rest := by simp
  rw [hshape]
  refine dropWhile_word (fun c hc => ?_) hrest
  rcases List.mem_cons.mp hc with rfl | hc
  · decide
  · rcases List.mem_append.mp hc with hc | hc
    · exact hword c hc
    · rw [List.mem_singleton.mp hc]
      decide

/-! ### Reading back -/

theorem endsWord_and (rest : List Char) : EndsWord (" AND ".toList ++ rest) := by
  rintro c ⟨⟩
  decide

theorem endsWord_or (rest : List Char) : EndsWord (" OR ".toList ++ rest) := by
  rintro c ⟨⟩
  decide

theorem endsWord_rParen (rest : List Char) : EndsWord (')' :: rest) := by
  rintro c ⟨⟩
  decide

theorem tokenizeHunt_printed {p : HuntPredicate} (hp : p.Printable) (hclean : p.Clean)
    (hrest : EndsWord rest) :
    tokenizeHunt (printed p ++ rest) = printedTokens p ++ tokenizeHunt rest := by
  induction p generalizing rest with
  | fieldMatch field pattern =>
    obtain ⟨hne, hfield, hquote⟩ := hp
    have hshape : printed (.fieldMatch field pattern) ++ rest =
        field.toList ++ ':' :: '"' :: (pattern.toList ++ '"' :: rest) := by simp [printed]
    rw [hshape, tokenizeHunt_field hne hfield, (trimMatches_quoted hquote hrest).mpr hclean,
      dropWhile_quoted hclean.1 hrest, String.ofList_toList, String.ofList_toList]
    rfl
  | freeText text =>
    have hshape : printed (.freeText text) ++ rest = '"' :: (text.toList ++ '"' :: rest) := by
      simp [printed]
    rw [hshape, tokenizeHunt_quoted hp, String.ofList_toList]
    rfl
  | and left right ihl ihr =>
    have hshape : printed (.and left right) ++ rest =
        '(' :: (printed left ++ (" AND ".toList ++ (printed right ++ ')' :: rest))) := by
      simp [printed]
    rw [hshape, tokenizeHunt_lParen, ihl hp.1 hclean.1 (endsWord_and _), tokenizeHunt_and,
      ihr hp.2 hclean.2 (endsWord_rParen rest), tokenizeHunt_rParen]
    simp [printedTokens]
  | or left right ihl ihr =>
    have hshape : printed (.or left right) ++ rest =
        '(' :: (printed left ++ (" OR ".toList ++ (printed right ++ ')' :: rest))) := by
      simp [printed]
    rw [hshape, tokenizeHunt_lParen, ihl hp.1 hclean.1 (endsWord_or _), tokenizeHunt_or,
      ihr hp.2 hclean.2 (endsWord_rParen rest), tokenizeHunt_rParen]
    simp [printedTokens]
  | not inner ih =>
    have hshape : printed (.not inner) ++ rest =
        '(' :: ("NOT ".toList ++ (printed inner ++ ')' :: rest)) := by simp [printed]
    rw [hshape, tokenizeHunt_lParen, tokenizeHunt_not, ih hp hclean (endsWord_rParen rest),
      tokenizeHunt_rParen]
    simp [printedTokens]

def HuntToken.isLeaf : HuntToken → Bool
  | .word _ | .fieldValue _ _ => true
  | _ => false

/-- The tokens of the leaves of a predicate, from left to right. -/
def leaves (p : HuntPredicate) : List HuntToken := (printedTokens p).filter HuntToken.isLeaf

/-- The leaves of a predicate are those of the tokens that derive it. -/
theorem Derives.leaves_eq {level : Level} {ts : List HuntToken} {p : HuntPredicate}
    (h : Derives level ts p) : ts.filter HuntToken.isLeaf = leaves p := by
  induction h with
  | conjunction _ ih => exact ih
  | operand _ ih => exact ih
  | or _ _ ihl ihr => simp [leaves, printedTokens, HuntToken.isLeaf, ihl, ihr]
  | and _ _ ihl ihr => simp [leaves, printedTokens, HuntToken.isLeaf, ihl, ihr]
  | adjacent _ _ ihl ihr => simp [leaves, printedTokens, HuntToken.isLeaf, ihl, ihr]
  | not _ ih => simp [leaves, printedTokens, HuntToken.isLeaf, ih]
  | parens _ ih => simp [HuntToken.isLeaf, ih]
  | fieldValue => rfl
  | word => rfl

/-- The leaves of two operands with an operator between them. -/
theorem clean_operands {left right : HuntPredicate} {op : HuntToken} {behind next : List Char}
    (hop : op.isLeaf = false) (hnext : tokenizeHunt behind = op :: tokenizeHunt next)
    (hbehind : EndsWord behind) (hl : left.Printable)
    (ihl : leaves left <+: (tokenizeHunt (printed left ++ behind)).filter HuntToken.isLeaf →
      left.Clean)
    (ihr : leaves right <+: (tokenizeHunt next).filter HuntToken.isLeaf → right.Clean)
    (h : leaves left ++ leaves right <+:
      (tokenizeHunt (printed left ++ behind)).filter HuntToken.isLeaf) :
    left.Clean ∧ right.Clean := by
  have hleft := ihl ((List.prefix_append _ _).trans h)
  have hop' : ¬ op.isLeaf = true := by simp [hop]
  rw [tokenizeHunt_printed hl hleft hbehind, hnext, List.filter_append,
    List.filter_cons_of_neg hop', ← leaves, List.prefix_append_right_inj] at h
  exact ⟨hleft, ihr h⟩

/-- Only a clean predicate has its own leaves in its text: the first pattern that is not read whole
gives another leaf. -/
theorem clean_of_leaves {p : HuntPredicate} (hp : p.Printable) (hrest : EndsWord rest)
    (h : leaves p <+: (tokenizeHunt (printed p ++ rest)).filter HuntToken.isLeaf) : p.Clean := by
  induction p generalizing rest with
  | fieldMatch field pattern =>
    obtain ⟨hne, hfield, hquote⟩ := hp
    have hshape : printed (.fieldMatch field pattern) ++ rest =
        field.toList ++ ':' :: '"' :: (pattern.toList ++ '"' :: rest) := by simp [printed]
    rw [hshape, tokenizeHunt_field hne hfield, List.filter_cons_of_pos rfl] at h
    have htoken := (List.cons_prefix_cons.mp h).1
    have hvalue := congrArg String.toList (HuntToken.fieldValue.inj htoken).2
    rw [String.toList_ofList] at hvalue
    exact (trimMatches_quoted hquote hrest).mp hvalue.symm
  | freeText text => trivial
  | and left right ihl ihr =>
    have hshape : printed (.and left right) ++ rest =
        '(' :: (printed left ++ (" AND ".toList ++ (printed right ++ ')' :: rest))) := by
      simp [printed]
    have hleaves : leaves (.and left right) = leaves left ++ leaves right := by
      simp [leaves, printedTokens, HuntToken.isLeaf]
    rw [hshape, tokenizeHunt_lParen, hleaves, List.filter_cons_of_neg Bool.false_ne_true] at h
    exact clean_operands rfl (tokenizeHunt_and _) (endsWord_and _) hp.1
      (ihl hp.1 (endsWord_and _)) (ihr hp.2 (endsWord_rParen rest)) h
  | or left right ihl ihr =>
    have hshape : printed (.or left right) ++ rest =
        '(' :: (printed left ++ (" OR ".toList ++ (printed right ++ ')' :: rest))) := by
      simp [printed]
    have hleaves : leaves (.or left right) = leaves left ++ leaves right := by
      simp [leaves, printedTokens, HuntToken.isLeaf]
    rw [hshape, tokenizeHunt_lParen, hleaves, List.filter_cons_of_neg Bool.false_ne_true] at h
    exact clean_operands rfl (tokenizeHunt_or _) (endsWord_or _) hp.1
      (ihl hp.1 (endsWord_or _)) (ihr hp.2 (endsWord_rParen rest)) h
  | not inner ih =>
    have hshape : printed (.not inner) ++ rest =
        '(' :: ("NOT ".toList ++ (printed inner ++ ')' :: rest)) := by simp [printed]
    have hleaves : leaves (.not inner) = leaves inner := by
      simp [leaves, printedTokens, HuntToken.isLeaf]
    rw [hshape, tokenizeHunt_lParen, tokenizeHunt_not, hleaves,
      List.filter_cons_of_neg Bool.false_ne_true, List.filter_cons_of_neg Bool.false_ne_true] at h
    exact ih hp (endsWord_rParen rest) h

/-- A predicate is read back from its text if and only if it is clean. -/
theorem readBack_iff_clean {p : HuntPredicate} (hp : p.Printable) :
    parseHuntQuery p.print = .ok p ↔ p.Clean := by
  have hnil : EndsWord [] := by
    rintro c ⟨⟩
  rw [parseHuntQuery_eq_ok, HuntPredicate.print, String.toList_ofList]
  constructor
  · intro h
    exact clean_of_leaves hp hnil ⟨[], by rw [List.append_nil, List.append_nil, h.leaves_eq]⟩
  · intro hclean
    have htokens := tokenizeHunt_printed hp hclean hnil
    rw [List.append_nil, tokenizeHunt_nil, List.append_nil] at htokens
    rw [htokens]
    exact .conjunction (.operand (derives_printedTokens p))

/-- A predicate is read back from its text exactly when it is clean, and what is read from any text
is what the grammar derives from its tokens. -/
theorem parseHuntQuery_print_iff (p : HuntPredicate) (hp : p.Printable) :
    (parseHuntQuery p.print = .ok p ↔ p.Clean) ∧
      ∀ input q, parseHuntQuery input = .ok q ↔
        Derives .disjunction (tokenizeHunt input.toList) q :=
  ⟨readBack_iff_clean hp, fun _ _ => parseHuntQuery_eq_ok⟩

/-- A query for addresses. -/
theorem parseHuntQuery_print_address :
    (parseHuntQuery (HuntPredicate.not (.fieldMatch "src_ip" "10.0.*")).print =
        .ok (.not (.fieldMatch "src_ip" "10.0.*")) ↔
      HuntPredicate.Clean (.not (.fieldMatch "src_ip" "10.0.*"))) ∧
      ∀ input q, parseHuntQuery input = .ok q ↔
        Derives .disjunction (tokenizeHunt input.toList) q := by
  apply parseHuntQuery_print_iff
  unfold HuntPredicate.Printable HuntPredicate.Printable
  simp [isFieldChar, isWordChar, isWhiteSpace]

/-- A pattern with a blank is cut at it. -/
theorem commandLine_not_readBack :
    HuntPredicate.Printable (.fieldMatch "command_line" "net user") ∧
      parseHuntQuery (HuntPredicate.print (.fieldMatch "command_line" "net user")) ≠
        .ok (.fieldMatch "command_line" "net user") := by
  have hprintable : HuntPredicate.Printable (.fieldMatch "command_line" "net user") := by
    unfold HuntPredicate.Printable
    simp [isFieldChar, isWordChar, isWhiteSpace]
  refine ⟨hprintable, fun h => ?_⟩
  have hclean := (readBack_iff_clean hprintable).mp h
  exact absurd (hclean.1 ' ' (by simp)) (by decide)

end Wardex.Hunt
