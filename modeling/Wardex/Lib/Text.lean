import Mathlib.Data.List.Basic
import Mathlib.Data.List.DropRight

/-! Text cut into lines and into words, text without what stands at its edges, and text cut at
separators.  A line ends with a line feed or with a carriage return and a line feed, and the last
line need not end at all; words are what white space separates. -/

namespace Wardex.Lib

/-- The lines of a text, each with whether a line feed ends it. -/
def rawLines : List Char → List (List Char × Bool)
  | [] => []
  | c :: rest =>
    if c = '\n' then ([], true) :: rawLines rest
    else match rawLines rest with
      | [] => [([c], false)]
      | (line, ended) :: more => (c :: line, ended) :: more

def stripCr (line : List Char) : List Char :=
  if line.getLast? = some '\r' then line.dropLast else line

def lines (text : List Char) : List (List Char) :=
  (rawLines text).map fun p => if p.2 then stripCr p.1 else p.1

theorem rawLines_line {line : List Char} (h : '\n' ∉ line) (rest : List Char) :
    rawLines (line ++ '\n' :: rest) = (line, true) :: rawLines rest := by
  induction line with
  | nil => simp [rawLines]
  | cons c line ih =>
    have hc : c ≠ '\n' := Ne.symm (List.ne_of_not_mem_cons h)
    rw [List.cons_append, rawLines, if_neg hc, ih (List.not_mem_of_not_mem_cons h)]

theorem lines_line {line : List Char} (h : '\n' ∉ line) (rest : List Char) :
    lines (line ++ '\n' :: rest) = stripCr line :: lines rest := by
  rw [lines, rawLines_line h, List.map_cons]
  rfl

/-- Lines written one after the other, each with its line feed, are read back. -/
theorem lines_flatMap {texts : List (List Char)} (h : ∀ t ∈ texts, '\n' ∉ t)
    (hcr : ∀ t ∈ texts, '\r' ∉ t) : lines (texts.flatMap fun t => t ++ ['\n']) = texts := by
  induction texts with
  | nil => rfl
  | cons t texts ih =>
    have hrest := ih (fun u hu => h u (List.mem_cons_of_mem _ hu))
      (fun u hu => hcr u (List.mem_cons_of_mem _ hu))
    have hstrip : stripCr t = t :=
      if_neg fun hlast => hcr t List.mem_cons_self (List.mem_of_getLast? hlast)
    rw [List.flatMap_cons, List.append_assoc, List.singleton_append,
      lines_line (h t List.mem_cons_self), hstrip, hrest]

/-- The characters with the Unicode property White_Space. -/
def isWhiteSpace (c : Char) : Bool :=
  (9 ≤ c.toNat && c.toNat ≤ 13) || c.toNat == 0x20 || c.toNat == 0x85 || c.toNat == 0xA0 ||
    c.toNat == 0x1680 || (0x2000 ≤ c.toNat && c.toNat ≤ 0x200A) || c.toNat == 0x2028 ||
    c.toNat == 0x2029 || c.toNat == 0x202F || c.toNat == 0x205F || c.toNat == 0x3000

theorem not_isAlphanum_of_isWhiteSpace {c : Char} (h : isWhiteSpace c) : c.isAlphanum = false := by
  have hval : c.val.toNat = c.toNat := rfl
  simp only [isWhiteSpace, Bool.or_eq_true, Bool.and_eq_true, decide_eq_true_eq, beq_iff_eq] at h
  delta Char.isAlphanum Char.isAlpha Char.isUpper Char.isLower Char.isDigit
  simp only [Bool.or_eq_false_iff, Bool.and_eq_false_iff, decide_eq_false_iff_not, ge_iff_le,
    UInt32.le_iff_toNat_le, Char.reduceVal, UInt32.reduceToNat, hval]
  omega

def words (text : List Char) : List (List Char) :=
  (text.splitOnP isWhiteSpace).filter fun w => w ≠ []

def IsWord (w : List Char) : Prop := w ≠ [] ∧ ∀ c ∈ w, isWhiteSpace c = false

instance (w : List Char) : Decidable (IsWord w) :=
  decidable_of_iff (w ≠ [] ∧ w.all (fun c => !isWhiteSpace c)) (by simp [IsWord])

/-- Words written with a blank between them are read back. -/
theorem words_intercalate {ws : List (List Char)} (h : ∀ w ∈ ws, IsWord w) :
    words ([' '].intercalate ws) = ws := by
  induction ws with
  | nil => rfl
  | cons w ws ih =>
    obtain ⟨hne, hspace⟩ := h w List.mem_cons_self
    have hrest := ih fun v hv => h v (List.mem_cons_of_mem _ hv)
    cases ws with
    | nil =>
      rw [List.intercalate_singleton, words, List.splitOnP_eq_singleton hspace]
      exact List.filter_cons_of_pos (by simpa using hne)
    | cons v ws =>
      rw [List.intercalate_cons_cons, List.append_assoc, List.singleton_append, words,
        List.splitOnP_append_cons_of_forall_mem hspace ' ' rfl,
        List.filter_cons_of_pos (by simpa using hne)]
      exact congrArg (List.cons w) hrest

/-! ## Trimmed text -/

def trimWith (p : Char → Bool) (text : List Char) : List Char :=
  (text.dropWhile p).rdropWhile p

def trim (text : List Char) : List Char := trimWith isWhiteSpace text

def trimMatches (c : Char) (text : List Char) : List Char := trimWith (· == c) text

/-- Nothing that `p` selects stands at an edge of the text. -/
def Bare (p : Char → Bool) (text : List Char) : Prop :=
  (∀ c ∈ text.head?, p c = false) ∧ ∀ c ∈ text.getLast?, p c = false

instance (p : Char → Bool) (text : List Char) : Decidable (Bare p text) :=
  decidable_of_iff (text.head?.all (fun c => !p c) ∧ text.getLast?.all fun c => !p c)
    (by simp [Bare, Option.all_eq_true])

section

variable {p : Char → Bool} {text : List Char}

theorem Bare.of_forall (h : ∀ c ∈ text, p c = false) : Bare p text :=
  ⟨fun c hc => h c (List.mem_of_head? hc), fun c hc => h c (List.mem_of_getLast? hc)⟩

theorem trimWith_eq_self (h : Bare p text) : trimWith p text = text := by
  have hleft : text.dropWhile p = text := by
    cases text with
    | nil => rfl
    | cons c rest => exact List.dropWhile_cons_of_neg (by simp [h.1 c rfl])
  rw [trimWith, hleft, List.rdropWhile_eq_self_iff]
  intro hne
  simp [h.2 _ (List.getLast?_eq_some_getLast hne)]

theorem trimWith_isInfix (p : Char → Bool) (text : List Char) : trimWith p text <:+: text :=
  (List.rdropWhile_prefix p _).isInfix.trans (List.dropWhile_suffix p).isInfix

theorem bare_trimWith (p : Char → Bool) (text : List Char) : Bare p (trimWith p text) := by
  constructor
  · intro c hc
    have hpre : trimWith p text <+: text.dropWhile p := List.rdropWhile_prefix p _
    have hhead : (text.dropWhile p).head? = some c := by
      obtain ⟨more, hmore⟩ := hpre
      obtain ⟨rest, hrest⟩ := List.head?_eq_some_iff.mp hc
      rw [← hmore, hrest]
      rfl
    have hnot := List.head?_dropWhile_not p text
    rw [hhead] at hnot
    simpa using hnot
  · intro c hc
    have hne : trimWith p text ≠ [] := List.ne_nil_of_mem (List.mem_of_getLast? hc)
    have hlast : (trimWith p text).getLast hne = c :=
      Option.some.inj ((List.getLast?_eq_some_getLast hne).symm.trans hc)
    have hnot := List.rdropWhile_last_not p (text.dropWhile p) hne
    change ¬p ((trimWith p text).getLast hne) = true at hnot
    rw [hlast] at hnot
    simpa using hnot

theorem trimWith_cons {c : Char} (hc : p c = true) : trimWith p (c :: text) = trimWith p text := by
  rw [trimWith, List.dropWhile_cons_of_pos hc, trimWith]

theorem trimWith_concat {c : Char} (hc : p c = true) (text : List Char) :
    trimWith p (text ++ [c]) = trimWith p text := by
  rw [trimWith, trimWith, List.dropWhile_append]
  split_ifs with hempty
  · rw [List.isEmpty_iff.mp hempty, List.dropWhile_cons_of_pos hc, List.dropWhile_nil]
  · exact List.rdropWhile_concat_pos p _ c hc

/-- A first character that is kept stays the first. -/
theorem exists_trimWith_cons {c : Char} (hc : p c = false) (text : List Char) :
    ∃ rest, trimWith p (c :: text) = c :: rest := by
  have hleft : (c :: text).dropWhile p = c :: text := List.dropWhile_cons_of_neg (by simp [hc])
  have hpre : trimWith p (c :: text) <+: c :: text := by
    rw [trimWith, hleft]
    exact List.rdropWhile_prefix p _
  have hne : trimWith p (c :: text) ≠ [] := by
    rw [trimWith, hleft, Ne, List.rdropWhile_eq_nil_iff]
    intro hall
    rw [hall c List.mem_cons_self] at hc
    cases hc
  rcases List.prefix_cons_iff.mp hpre with h | ⟨rest, h, -⟩
  · exact absurd h hne
  · exact ⟨rest, h⟩

theorem words_append {c : Char} (hc : isWhiteSpace c = true) (before behind : List Char) :
    words (before ++ c :: behind) = words before ++ words behind := by
  rw [words, List.splitOnP_append_cons _ _ hc, List.filter_append]
  rfl

/-- White space at the edges is not part of a word. -/
theorem words_trim (text : List Char) : words (trim text) = words text := by
  have hfront : words (text.dropWhile isWhiteSpace) = words text := by
    induction text with
    | nil => rfl
    | cons c text ih =>
      by_cases hc : isWhiteSpace c = true
      · rw [List.dropWhile_cons_of_pos hc, ih]
        exact (words_append hc [] text).symm
      · rw [List.dropWhile_cons_of_neg hc]
  have hback (behind : List Char) : words (behind.rdropWhile isWhiteSpace) = words behind := by
    induction behind using List.reverseRecOn with
    | nil => rfl
    | append_singleton behind c ih =>
      by_cases hc : isWhiteSpace c = true
      · rw [List.rdropWhile_concat_pos isWhiteSpace behind c hc, ih, words_append hc behind []]
        exact (List.append_nil _).symm
      · rw [List.rdropWhile_concat_neg isWhiteSpace behind c hc]
  exact (hback _).trans hfront

theorem trim_blank (text : List Char) : trim (' ' :: text) = trim text :=
  trimWith_cons (by decide)

/-- What is taken off at the two edges is put back on. -/
theorem trimWith_wrap {c : Char} (hc : p c = true) (h : Bare p text) :
    trimWith p (c :: (text ++ [c])) = text := by
  cases text with
  | nil => simp [trimWith, hc]
  | cons d rest =>
    have hd : p d = false := h.1 d rfl
    have hleft : (d :: (rest ++ [c])).dropWhile p = d :: rest ++ [c] :=
      List.dropWhile_cons_of_neg (by simp [hd])
    rw [trimWith_cons hc, trimWith, List.cons_append, hleft, List.rdropWhile_concat_pos p _ _ hc]
    have hself := trimWith_eq_self h
    rw [trimWith, List.dropWhile_cons_of_neg (by simp [hd])] at hself
    exact hself

end

/-- The edges of a text made of two are one of each. -/
theorem bare_append {p : Char → Bool} {a b : List Char} (ha : a ≠ []) (hb : b ≠ [])
    (hhead : ∀ c ∈ a.head?, p c = false) (hlast : ∀ c ∈ b.getLast?, p c = false) :
    Bare p (a ++ b) := by
  constructor
  · intro c hc
    rw [List.head?_append_of_ne_nil a ha] at hc
    exact hhead c hc
  · intro c hc
    rw [List.getLast?_append_of_ne_nil a hb] at hc
    exact hlast c hc

theorem bare_join {p : Char → Bool} {a b : List Char} (ha : Bare p a) (hb : Bare p b)
    (hne : a ≠ []) (hne' : b ≠ []) (mid : List Char) : Bare p (a ++ (mid ++ b)) := by
  refine bare_append hne (List.append_ne_nil_of_right_ne_nil mid hne') ha.1 ?_
  rw [List.getLast?_append_of_ne_nil mid hne']
  exact hb.2

theorem bare_wrap {p : Char → Bool} {c d : Char} (hc : p c = false) (hd : p d = false)
    (text : List Char) : Bare p (c :: (text ++ [d])) := by
  have hwhole : c :: (text ++ [d]) = (c :: text) ++ [d] := rfl
  rw [hwhole]
  refine bare_append (List.cons_ne_nil c text) (List.cons_ne_nil d []) ?_ ?_
  · rintro e ⟨⟩
    exact hc
  · rintro e ⟨⟩
    exact hd

theorem bare_of_not_mem {c : Char} {text : List Char} (h : c ∉ text) : Bare (· == c) text :=
  Bare.of_forall fun _ hd => beq_false_of_ne fun heq => h (heq ▸ hd)

theorem trimMatches_wrap {c : Char} {text : List Char} (h : Bare (· == c) text) :
    trimMatches c (c :: (text ++ [c])) = text :=
  trimWith_wrap (p := (· == c)) (beq_self_eq_true c) h

theorem trimMatches_eq_self {c : Char} {text : List Char} (h : Bare (· == c) text) :
    trimMatches c text = text :=
  trimWith_eq_self h

/-- A text is what `trimMatches` leaves of it, between copies of the character. -/
theorem exists_replicate_trimMatches (c : Char) (text : List Char) :
    ∃ a b, text = List.replicate a c ++ trimMatches c text ++ List.replicate b c := by
  have hcopies : ∀ l : List Char, (∀ d ∈ l, (d == c) = true) → l = List.replicate l.length c :=
    fun l h => List.eq_replicate_iff.mpr ⟨rfl, fun d hd => eq_of_beq (h d hd)⟩
  have hleft := hcopies (text.takeWhile (· == c)) fun d hd =>
    List.mem_takeWhile_imp (p := (· == c)) hd
  have hright := hcopies ((text.dropWhile (· == c)).rtakeWhile (· == c)) fun d hd =>
    List.mem_rtakeWhile_imp (p := (· == c)) hd
  refine ⟨(text.takeWhile (· == c)).length,
    ((text.dropWhile (· == c)).rtakeWhile (· == c)).length, ?_⟩
  rw [← hleft, trimMatches, trimWith, List.append_assoc, ← hright,
    List.rdropWhile_append_rtakeWhile, List.takeWhile_append_dropWhile]

section

variable {p : Char → Bool} {word rest : List Char}

/-- A word ends where its characters end. -/
theorem takeWhile_word (h : ∀ c ∈ word, p c) (hrest : ∀ c ∈ rest.head?, p c = false) :
    (word ++ rest).takeWhile p = word := by
  rw [List.takeWhile_append_of_pos h]
  cases rest with
  | nil => simp
  | cons c rest => simp [hrest c rfl]

theorem dropWhile_word (h : ∀ c ∈ word, p c) (hrest : ∀ c ∈ rest.head?, p c = false) :
    (word ++ rest).dropWhile p = rest := by
  rw [List.dropWhile_append_of_pos h]
  cases rest with
  | nil => simp
  | cons c rest => simp [hrest c rfl]

end

/-- What stands before and after the first `c`. -/
def splitOnce (c : Char) : List Char → Option (List Char × List Char)
  | [] => none
  | d :: rest =>
    if d = c then some ([], rest) else (splitOnce c rest).map fun p => (d :: p.1, p.2)

theorem splitOnce_append {c : Char} {key : List Char} (h : c ∉ key) (rest : List Char) :
    splitOnce c (key ++ c :: rest) = some (key, rest) := by
  induction key with
  | nil => simp [splitOnce]
  | cons d key ih =>
    have hd : d ≠ c := (List.ne_of_not_mem_cons h).symm
    rw [List.cons_append, splitOnce, if_neg hd, ih (List.not_mem_of_not_mem_cons h)]
    rfl

theorem not_mem_intercalate {c : Char} {sep : List Char} {items : List (List Char)}
    (hsep : c ∉ sep) (h : ∀ t ∈ items, c ∉ t) : c ∉ sep.intercalate items := by
  induction items with
  | nil => exact List.not_mem_nil
  | cons t items ih =>
    have ht : c ∉ t := h t List.mem_cons_self
    cases items with
    | nil =>
      rw [List.intercalate_singleton]
      exact ht
    | cons u items =>
      rw [List.intercalate_cons_cons, List.mem_append, List.mem_append]
      rintro ((hmem | hmem) | hmem)
      · exact ht hmem
      · exact hsep hmem
      · exact ih (fun v hv => h v (List.mem_cons_of_mem t hv)) hmem

/-- Items written with a separator and a blank between them are read back. -/
theorem map_trim_splitOn {c : Char} {items : List (List Char)} (hne : items ≠ [])
    (hsep : ∀ t ∈ items, c ∉ t) (hbare : ∀ t ∈ items, Bare isWhiteSpace t) (hc : c ≠ ' ') :
    (([c, ' '].intercalate items).splitOn c).map trim = items := by
  induction items with
  | nil => exact absurd rfl hne
  | cons t items ih =>
    have ht : trim t = t := trimWith_eq_self (hbare t List.mem_cons_self)
    cases items with
    | nil =>
      rw [List.intercalate_singleton, List.splitOn_eq_singleton (hsep t List.mem_cons_self),
        List.map_singleton, ht]
    | cons u items =>
      have hrest := ih (List.cons_ne_nil _ _) (fun v hv => hsep v (List.mem_cons_of_mem _ hv))
        fun v hv => hbare v (List.mem_cons_of_mem _ hv)
      have hblank : ∀ pieces : List (List Char),
          (pieces.modifyHead (List.cons ' ')).map trim = pieces.map trim := by
        intro pieces
        cases pieces with
        | nil => rfl
        | cons p pieces => exact congrArg (· :: pieces.map trim) (trimWith_cons rfl)
      rw [List.intercalate_cons_cons, List.append_assoc, List.cons_append,
        List.splitOn_append_cons_self_of_not_mem (hsep t List.mem_cons_self), List.map_cons, ht,
        List.singleton_append, List.splitOn_cons_eq_if_modifyHead,
        if_neg (by simpa using hc.symm), hblank, hrest]

/-! ## Strings -/

def trimText (s : String) : String := String.ofList (trim s.toList)

@[simp] theorem trimText_trimText (s : String) : trimText (trimText s) = trimText s := by
  rw [trimText, trimText, String.toList_ofList]
  exact congrArg String.ofList (trimWith_eq_self (bare_trimWith isWhiteSpace s.toList))

def toAsciiLowercase (s : String) : String := String.ofList (s.toList.map Char.toLower)

end Wardex.Lib
