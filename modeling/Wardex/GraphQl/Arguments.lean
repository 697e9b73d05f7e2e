import Wardex.GraphQl.Parser

/-! Queries as trees, the text they are printed as and what the parser should make of it.  A tree
is printed on one line, with its strings in double quotes and quotes and backslashes escaped.
Printed arguments are read back. -/

namespace Wardex.GraphQl

open Lib

section

structure Name (alphabet : Alphabet) where
  chars : List Char
  nonempty : chars ≠ []
  valid : ∀ c ∈ chars, alphabet.isNameChar c

/-- The values an argument is printed from: integers of 64 bits, booleans and strings. -/
inductive Literal
  | number (n : Int) (low : -2 ^ 63 ≤ n) (high : n < 2 ^ 63)
  | bool (b : Bool)
  | string (s : String)

namespace Literal

def value : Literal → ArgValue
  | number n _ _ => .number n
  | bool b => .bool b
  | string s => .string s

def escape (text : List Char) : List Char :=
  text.flatMap fun c => if c = '"' ∨ c = '\\' then ['\\', c] else [c]

def print : Literal → List Char
  | number n _ _ => (toString n).toList
  | bool b => (toString b).toList
  | string s => '"' :: (escape s.toList ++ ['"'])

/-- The characters of a string; numbers and booleans have none. -/
def content : Literal → List Char
  | number .. => []
  | bool _ => []
  | string s => s.toList

/-- What the parser makes of a value: it leaves the escapes in a string. -/
def read : Literal → ArgValue
  | number n _ _ => .number n
  | bool b => .bool b
  | string s => .string (String.ofList (escape s.toList))

/-- Nothing in the string has to be escaped. -/
def Plain (v : Literal) : Prop := '"' ∉ v.content ∧ '\\' ∉ v.content

instance (v : Literal) : Decidable v.Plain := inferInstanceAs (Decidable (_ ∧ _))

end Literal

variable {alphabet : Alphabet}

def printArg (arg : Name alphabet × Literal) : List Char := arg.1.chars ++ ':' :: ' ' :: arg.2.print

/-- The arguments behind the first one. -/
def argTail (items : List (Name alphabet × Literal)) : List Char :=
  items.flatMap fun arg => ',' :: ' ' :: printArg arg

def argText : List (Name alphabet × Literal) → List Char
  | [] => []
  | arg :: more => printArg arg ++ argTail more

structure Args (alphabet : Alphabet) where
  items : List (Name alphabet × Literal)
  distinct : (items.map fun arg => arg.1.chars).Nodup

namespace Args

def print (args : Args alphabet) : List Char :=
  if args.items.isEmpty then [] else '(' :: (argText args.items ++ [')'])

def values (f : Literal → ArgValue) (args : Args alphabet) : KeyMap String ArgValue := fun key =>
  (args.items.find? fun arg => String.ofList arg.1.chars = key).map fun arg => f arg.2

end Args

structure Tree (alphabet : Alphabet) where
  field : Name alphabet
  aliasName : Option (Name alphabet)
  args : Args alphabet
  subFields : List (Tree alphabet)

def printAlias : Option (Name alphabet) → List Char
  | none => []
  | some name => name.chars ++ [':', ' ']

mutual

def Tree.print : Tree alphabet → List Char
  | ⟨field, aliasName, args, subFields⟩ =>
    printAlias aliasName ++ field.chars ++ args.print ++
      if subFields.isEmpty then [] else ' ' :: '{' :: ' ' :: (printAll subFields ++ ['}'])

def printAll : List (Tree alphabet) → List Char
  | [] => []
  | t :: ts => t.print ++ ' ' :: printAll ts

end

section

variable (f : Literal → ArgValue)

mutual

/-- The field as the parser represents it, with each value taken to `f` of it. -/
def Tree.selection : Tree alphabet → Selection
  | ⟨field, aliasName, args, subFields⟩ =>
    { field := String.ofList field.chars
      aliasName := aliasName.map fun name => String.ofList name.chars
      args := args.values f
      subFields := selectionsOf subFields }

def selectionsOf : List (Tree alphabet) → List Selection
  | [] => []
  | t :: ts => t.selection :: selectionsOf ts

end

end

mutual

/-- How many selection sets are nested below a field. -/
def Tree.depth : Tree alphabet → Nat
  | ⟨_, _, _, subFields⟩ => depthOf subFields

def depthOf : List (Tree alphabet) → Nat
  | [] => 0
  | t :: ts => max (t.depth + 1) (depthOf ts)

end

/-- The field and every field below it. -/
inductive Tree.All (p : Tree alphabet → Prop) : Tree alphabet → Prop
  | mk {t : Tree alphabet} (here : p t) (below : ∀ s ∈ t.subFields, s.All p) : t.All p

/-- What stands between the braces of a selection set. -/
def setContent (ts : List (Tree alphabet)) : List Char := ' ' :: printAll ts

def printSet (ts : List (Tree alphabet)) : List Char := '{' :: (setContent ts ++ ['}'])

/-- No string of the field needs an escape. -/
def Tree.Plain (t : Tree alphabet) : Prop := ∀ arg ∈ t.args.items, arg.2.Plain

/-- The brackets are balanced even with those in strings counted. -/
structure Tree.WellBracketed (t : Tree alphabet) : Prop where
  parens : Balanced '(' ')' (argText t.args.items)
  braces : Balanced '{' '}' (setContent t.subFields)

inductive Operation
  | query
  | mutation

def Operation.keyword : Operation → String
  | query => "query"
  | mutation => "mutation"

structure Query (alphabet : Alphabet) where
  operation : Operation
  name : Option (Name alphabet)
  selections : List (Tree alphabet)

namespace Query

variable (q : Query alphabet)

def header : List Char :=
  match q.name with
  | none => [' ']
  | some name => ' ' :: (name.chars ++ [' '])

def print : List Char := q.operation.keyword.toList ++ (q.header ++ printSet q.selections)

def parsed (f : Literal → ArgValue) : ParsedQuery :=
  { operation := q.operation.keyword
    name := q.name.map fun name => String.ofList name.chars
    selections := selectionsOf f q.selections }

structure WellBracketed : Prop where
  fields : ∀ t ∈ q.selections, t.All Tree.WellBracketed
  braces : Balanced '{' '}' (setContent q.selections)

end Query

end

/-! ## Reading arguments back -/

namespace Alphabet

variable (alphabet : Alphabet)

theorem isNameChar_ascii {c : Char} (h : c.toNat < 128) :
    alphabet.isNameChar c = (c.isAlphanum || c == '_') := by
  rw [isNameChar, alphabet.ascii c h]

/-- The characters the parser looks for are not part of a name. -/
theorem not_isNameChar {c : Char} (h : c ∈ [' ', ',', ':', '(', ')', '{', '}', '"']) :
    alphabet.isNameChar c = false := by
  have hascii : ∀ d ∈ [' ', ',', ':', '(', ')', '{', '}', '"'],
      d.toNat < 128 ∧ (d.isAlphanum || d == '_') = false :=
    List.forall_iff_forall_mem.mp (by decide)
  obtain ⟨hlt, hno⟩ := hascii c h
  rw [alphabet.isNameChar_ascii hlt, hno]

theorem isNameChar_ne {c d : Char} (h : alphabet.isNameChar c)
    (hd : d ∈ [' ', ',', ':', '(', ')', '{', '}', '"']) : c ≠ d := by
  rintro rfl
  rw [alphabet.not_isNameChar hd] at h
  cases h

theorem isWhiteSpace_of_isNameChar {c : Char} (h : alphabet.isNameChar c) :
    isWhiteSpace c = false := by
  by_contra hspace
  have hletter := alphabet.whiteSpace c (Bool.of_not_eq_false hspace)
  rw [isNameChar, hletter, Bool.false_or] at h
  exact hspace ((eq_of_beq h) ▸ rfl)

end Alphabet

variable {alphabet : Alphabet}

namespace Name

variable (name : Name alphabet)

theorem not_mem {c : Char} (h : c ∈ [' ', ',', ':', '(', ')', '{', '}', '"']) :
    c ∉ name.chars :=
  fun hmem => alphabet.isNameChar_ne (name.valid c hmem) h rfl

theorem bare : Bare isWhiteSpace name.chars :=
  Bare.of_forall fun c hc => alphabet.isWhiteSpace_of_isNameChar (name.valid c hc)

theorem head?_append (rest : List Char) : (name.chars ++ rest).head? = name.chars.head? :=
  List.head?_append_of_ne_nil _ name.nonempty

theorem isNameChar_head {c : Char} (rest : List Char) (h : c ∈ (name.chars ++ rest).head?) :
    alphabet.isNameChar c := by
  rw [name.head?_append] at h
  exact name.valid c (List.mem_of_head? h)

end Name

/-! Values. -/

namespace Literal

theorem scanQuoted_cons {c : Char} (hquote : c ≠ '"') (hescape : c ≠ '\\') (rest : List Char) :
    scanQuoted (c :: rest) = (scanQuoted rest).map (List.cons c) id := by
  cases rest with
  | nil => simp [scanQuoted, hquote]
  | cons d rest => rw [scanQuoted, if_neg hescape, if_neg hquote]

theorem scanQuoted_quote (rest : List Char) : scanQuoted ('"' :: rest) = ([], rest) := by
  cases rest with
  | nil => rfl
  | cons d rest => rfl

/-- An escaped string ends at the quote behind it. -/
theorem scanQuoted_escape (text rest : List Char) :
    scanQuoted (escape text ++ '"' :: rest) = (escape text, rest) := by
  induction text with
  | nil => exact scanQuoted_quote rest
  | cons c text ih =>
    have hcons : escape (c :: text) =
        (if c = '"' ∨ c = '\\' then ['\\', c] else [c]) ++ escape text := rfl
    rw [hcons]
    split_ifs with hc
    · have hpair : ['\\', c] ++ escape text ++ '"' :: rest =
          '\\' :: c :: (escape text ++ '"' :: rest) := rfl
      rw [hpair, scanQuoted, if_pos rfl, ih]
      rfl
    · obtain ⟨hquote, hescape⟩ := not_or.mp hc
      rw [List.append_assoc, List.singleton_append, scanQuoted_cons hquote hescape, ih]
      rfl

theorem escape_eq_self {text : List Char} (hquote : '"' ∉ text) (hescape : '\\' ∉ text) :
    escape text = text := by
  induction text with
  | nil => rfl
  | cons c text ih =>
    have hc : ¬(c = '"' ∨ c = '\\') := by
      rintro (rfl | rfl)
      · exact hquote List.mem_cons_self
      · exact hescape List.mem_cons_self
    have hrest := ih (List.not_mem_of_not_mem_cons hquote) (List.not_mem_of_not_mem_cons hescape)
    rw [escape] at hrest ⊢
    rw [List.flatMap_cons, if_neg hc, hrest]
    rfl

theorem parseUnquoted_number (n : Int) (low : -2 ^ 63 ≤ n) (high : n < 2 ^ 63) :
    parseUnquoted (toString n).toList = .number n := by
  rw [parseUnquoted, parseSigned_toString low high]

theorem parseUnquoted_bool (b : Bool) : parseUnquoted (toString b).toList = .bool b := by
  cases b with
  | false => decide
  | true => decide

def Unquoted (v : Literal) : Prop := ∀ s, v ≠ string s

theorem unquoted_number (n : Int) (low : -2 ^ 63 ≤ n) (high : n < 2 ^ 63) :
    (number n low high).Unquoted := fun _ => nofun

theorem unquoted_bool (b : Bool) : (Literal.bool b).Unquoted := fun _ => nofun

/-- The text of a value that is not a string is one word of these characters. -/
theorem unquoted_chars {v : Literal} (h : v.Unquoted) :
    ∀ c ∈ v.print, c = '-' ∨ c.isAlphanum := by
  cases v with
  | number n low high =>
    intro c hc
    refine (mem_toString hc).imp_right fun hdigit => ?_
    rw [Char.isAlphanum, hdigit, Bool.or_true]
  | bool b =>
    cases b with
    | false => exact List.forall_iff_forall_mem.mp (by decide)
    | true => exact List.forall_iff_forall_mem.mp (by decide)
  | string s => exact absurd rfl (h s)

theorem print_ne_nil (v : Literal) : v.print ≠ [] := by
  cases v with
  | number n low high =>
    cases n with
    | ofNat m =>
      rw [print, toList_toString_ofNat]
      exact Nat.toDigits_ne_nil
    | negSucc m =>
      rw [print, toList_toString_negSucc]
      exact List.cons_ne_nil _ _
  | bool b =>
    cases b with
    | false => decide
    | true => decide
  | string s => exact List.cons_ne_nil _ _

theorem isWhiteSpace_unquoted {v : Literal} (h : v.Unquoted) :
    ∀ c ∈ v.print, isWhiteSpace c = false := by
  intro c hc
  rcases unquoted_chars h c hc with rfl | hletter
  · decide
  · by_contra hspace
    rw [not_isAlphanum_of_isWhiteSpace (Bool.of_not_eq_false hspace)] at hletter
    cases hletter

theorem not_mem_unquoted {v : Literal} (h : v.Unquoted) {d : Char}
    (hd : d ≠ '-' ∧ d.isAlphanum = false) : d ∉ v.print := by
  intro hmem
  rcases unquoted_chars h d hmem with heq | hletter
  · exact hd.1 heq
  · rw [hd.2] at hletter
    cases hletter

theorem bare_print (v : Literal) : Bare isWhiteSpace v.print := by
  cases v with
  | string s => exact bare_wrap (by decide) (by decide) _
  | number n low high => exact Bare.of_forall (isWhiteSpace_unquoted (unquoted_number n low high))
  | bool b => exact Bare.of_forall (isWhiteSpace_unquoted (unquoted_bool b))

theorem parseUnquoted_print {v : Literal} (h : v.Unquoted) :
    parseUnquoted v.print = v.read := by
  cases v with
  | number n low high => exact parseUnquoted_number n low high
  | bool b => exact parseUnquoted_bool b
  | string s => exact absurd rfl (h s)

/-- What may follow a value: nothing, or a comma and a blank. -/
def IsTail (tail : List Char) : Prop := tail = [] ∨ ∃ next, tail = ',' :: ' ' :: next

theorem parseValue_unquoted {v : Literal} (h : v.Unquoted) {tail : List Char}
    (htail : IsTail tail) : parseValue (v.print ++ tail) = (v.read, trim (tail.drop 1)) := by
  have hcomma : ∀ c ∈ v.print, (c != ',') = true := by
    intro c hc
    refine bne_iff_ne.mpr fun heq => not_mem_unquoted h (d := ',') (by decide) ?_
    rw [← heq]
    exact hc
  have hhead : ∀ c ∈ tail.head?, (c != ',') = false := by
    intro c hc
    rcases htail with rfl | ⟨next, rfl⟩
    · cases hc
    · rw [← Option.some.inj hc]
      rfl
  have htake : (v.print ++ tail).takeWhile (· != ',') = v.print := takeWhile_word hcomma hhead
  have hdrop : (v.print ++ tail).dropWhile (· != ',') = tail := dropWhile_word hcomma hhead
  have htrim : trim v.print = v.print := trimWith_eq_self v.bare_print
  unfold parseValue
  split
  · next text htext =>
    obtain ⟨c, rest, hprint⟩ := List.exists_cons_of_ne_nil v.print_ne_nil
    rw [hprint] at htext
    have hquote : '"' ∈ v.print := by
      rw [hprint, (List.cons.inj htext).1]
      exact List.mem_cons_self
    exact absurd hquote (not_mem_unquoted h (by decide))
  · rw [htake, hdrop, htrim, parseUnquoted_print h]

theorem parseValue_string (s : String) {tail : List Char} (htail : IsTail tail) :
    parseValue ((string s).print ++ tail) = ((string s).read, trim (tail.drop 1)) := by
  have hprint : (string s).print ++ tail = '"' :: (escape s.toList ++ '"' :: tail) := by
    rw [print, List.cons_append, List.append_assoc, List.singleton_append]
  have hcommas : tail.dropWhile (· == ',') = tail.drop 1 := by
    rcases htail with rfl | ⟨next, rfl⟩
    · rfl
    · rfl
  rw [hprint, parseValue, scanQuoted_escape]
  dsimp only
  rw [hcommas, read]

theorem parseValue_print (v : Literal) {tail : List Char} (htail : IsTail tail) :
    parseValue (v.print ++ tail) = (v.read, trim (tail.drop 1)) := by
  cases v with
  | number n low high => exact parseValue_unquoted (unquoted_number n low high) htail
  | bool b => exact parseValue_unquoted (unquoted_bool b) htail
  | string s => exact parseValue_string s htail

theorem Plain.read_eq {v : Literal} (h : v.Plain) : v.read = v.value := by
  cases v with
  | number n low high => rfl
  | bool b => rfl
  | string s =>
    have hescape : escape s.toList = s.toList := escape_eq_self h.1 h.2
    rw [read, value, hescape, String.ofList_toList]

end Literal

/-! Lists of arguments. -/

section

variable {items : List (Name alphabet × Literal)}

theorem argTail_cons (arg : Name alphabet × Literal) (more : List (Name alphabet × Literal)) :
    argTail (arg :: more) = ',' :: ' ' :: argText (arg :: more) := by
  rw [argTail, List.flatMap_cons]
  rfl

theorem isTail_argTail (items : List (Name alphabet × Literal)) :
    Literal.IsTail (argTail items) := by
  cases items with
  | nil => exact Or.inl rfl
  | cons arg more => exact Or.inr ⟨_, argTail_cons arg more⟩

theorem argText_cons (arg : Name alphabet × Literal) (more : List (Name alphabet × Literal)) :
    argText (arg :: more) = arg.1.chars ++ ':' :: ' ' :: (arg.2.print ++ argTail more) := by
  rw [argText, printArg, List.append_assoc]
  rfl

theorem bare_value (v : Literal) (items : List (Name alphabet × Literal)) :
    Bare isWhiteSpace (v.print ++ argTail items) := by
  induction items generalizing v with
  | nil =>
    rw [argTail, List.flatMap_nil, List.append_nil]
    exact v.bare_print
  | cons arg more ih =>
    have hsplit : v.print ++ argTail (arg :: more) =
        (v.print ++ ',' :: ' ' :: (arg.1.chars ++ [':', ' '])) ++
          (arg.2.print ++ argTail more) := by
      rw [argTail_cons, argText_cons]
      simp
    rw [hsplit]
    refine bare_append (by simp) (by simp [arg.2.print_ne_nil]) ?_ (ih arg.2).2
    intro c hc
    rw [List.head?_append_of_ne_nil _ v.print_ne_nil] at hc
    exact v.bare_print.1 c hc

theorem bare_argText (items : List (Name alphabet × Literal)) :
    Bare isWhiteSpace (argText items) := by
  cases items with
  | nil => exact Bare.of_forall nofun
  | cons arg more =>
    have hsplit : argText (arg :: more) =
        (arg.1.chars ++ [':', ' ']) ++ (arg.2.print ++ argTail more) := by
      rw [argText_cons]
      simp
    rw [hsplit]
    refine bare_append (by simp) (by simp [arg.2.print_ne_nil]) ?_ (bare_value arg.2 more).2
    intro c hc
    rw [arg.1.head?_append] at hc
    exact arg.1.bare.1 c hc

theorem trim_argText (items : List (Name alphabet × Literal)) :
    trim (argText items) = argText items :=
  trimWith_eq_self (bare_argText items)

theorem trim_argTail (items : List (Name alphabet × Literal)) :
    trim ((argTail items).drop 1) = argText items := by
  cases items with
  | nil => rfl
  | cons arg more =>
    rw [argTail_cons, List.drop_one, List.tail_cons]
    exact (trim_blank _).trans (trim_argText (arg :: more))

theorem parseArgsFrom_split {remaining key rest : List Char}
    (h : splitOnce ':' remaining = some (key, rest)) (args : KeyMap String ArgValue) :
    parseArgsFrom remaining args = parseArgsFrom (parseValue (trim rest)).2
      (args.insert (String.ofList (trim key)) (parseValue (trim rest)).1) := by
  rw [parseArgsFrom]
  split
  · next hnone =>
    rw [h] at hnone
    cases hnone
  · next hsome =>
    rw [h] at hsome
    cases hsome
    rfl

/-- The value that is read for a key. -/
def lookup (items : List (Name alphabet × Literal)) (key : String) : Option ArgValue :=
  (items.find? fun arg => String.ofList arg.1.chars = key).map fun arg => arg.2.read

theorem lookup_eq_none {key : List Char} (h : key ∉ items.map fun arg => arg.1.chars) :
    lookup items (String.ofList key) = none := by
  have hnone : (items.find? fun arg => String.ofList arg.1.chars = String.ofList key) = none := by
    refine List.find?_eq_none.mpr fun arg harg heq => h ?_
    rw [← String.ofList_injective (of_decide_eq_true heq)]
    exact List.mem_map_of_mem (f := fun arg => arg.1.chars) harg
  rw [lookup, hnone]
  rfl

theorem lookup_cons_self (arg : Name alphabet × Literal)
    (more : List (Name alphabet × Literal)) :
    lookup (arg :: more) (String.ofList arg.1.chars) = some arg.2.read := by
  simp [lookup]

theorem lookup_cons_of_ne {arg : Name alphabet × Literal} {key : String}
    (h : String.ofList arg.1.chars ≠ key) (more : List (Name alphabet × Literal)) :
    lookup (arg :: more) key = lookup more key := by
  simp [lookup, h]

/-- One round of the loop reads one argument. -/
theorem parseArgsFrom_cons (arg : Name alphabet × Literal)
    (more : List (Name alphabet × Literal)) (args : KeyMap String ArgValue) :
    parseArgsFrom (argText (arg :: more)) args =
      parseArgsFrom (argText more) (args.insert (String.ofList arg.1.chars) arg.2.read) := by
  have hsplit : splitOnce ':' (argText (arg :: more)) =
      some (arg.1.chars, ' ' :: (arg.2.print ++ argTail more)) := by
    rw [argText_cons]
    exact splitOnce_append (arg.1.not_mem (by decide)) _
  have hkey : trim arg.1.chars = arg.1.chars := trimWith_eq_self arg.1.bare
  have hvalue : trim (' ' :: (arg.2.print ++ argTail more)) = arg.2.print ++ argTail more :=
    (trim_blank _).trans (trimWith_eq_self (bare_value arg.2 more))
  rw [parseArgsFrom_split hsplit, hkey, hvalue,
    Literal.parseValue_print arg.2 (isTail_argTail more), trim_argTail]

theorem parseArgsFrom_argText (hdistinct : (items.map fun arg => arg.1.chars).Nodup)
    (args : KeyMap String ArgValue) :
    parseArgsFrom (argText items) args = fun key => (lookup items key).or (args key) := by
  induction items generalizing args with
  | nil =>
    rw [argText, parseArgsFrom]
    rfl
  | cons arg more ih =>
    obtain ⟨hnew, hdistinct⟩ := List.nodup_cons.mp hdistinct
    rw [parseArgsFrom_cons, ih hdistinct]
    funext key
    by_cases hkey : String.ofList arg.1.chars = key
    · subst hkey
      rw [lookup_eq_none hnew, KeyMap.insert_self, lookup_cons_self]
      rfl
    · rw [KeyMap.insert_of_ne _ (Ne.symm hkey), lookup_cons_of_ne hkey]

end

theorem parseArgs_argText (args : Args alphabet) :
    parseArgs (argText args.items) = args.values Literal.read := by
  rw [parseArgs, trim_argText, parseArgsFrom_argText args.distinct]
  funext key
  exact Option.or_none

end Wardex.GraphQl
