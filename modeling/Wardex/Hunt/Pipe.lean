import Wardex.Hunt.Search

/-! How a query is read that a pipe and an aggregation follow: without a pipe of its own, as the
query and the aggregation; with one, as what stands around that pipe. -/

namespace Wardex.Hunt

open Wardex.Lib

/-! ## Queries with a pipe -/

/-- ASCII characters other than capitals and white space. -/
def isPlain (c : Char) : Bool := c.toNat < 128 && !c.isUpper && !isWhiteSpace c

def IsPlainWord (word : String) : Prop := word ≠ "" ∧ ∀ c ∈ word.toList, isPlain c = true

instance (word : String) : Decidable (IsPlainWord word) :=
  decidable_of_iff (word ≠ "" ∧ word.toList.all isPlain = true) (by simp [IsPlainWord])

/-- `str::to_lowercase`, which leaves such words alone. -/
structure Lowercase where
  lower : String → String
  plain : ∀ word, IsPlainWord word → lower word = word

structure FieldName where
  name : String
  plain : IsPlainWord name

def countBy (q : String) (f : FieldName) : String := q ++ " | count by " ++ f.name

def topOf (q : String) (n : UInt64) (f : FieldName) : String :=
  q ++ " | top " ++ toString n.toNat ++ " " ++ f.name

/-- The query has no pipe, and no white space is trimmed from inside an open quote at its end. -/
structure Plain (q : String) : Prop where
  pipe : '|' ∉ q.toList
  trimmed : tokenizeHunt (trim q.toList) = tokenizeHunt q.toList

/-! ## Reading the pipe -/

variable {lower : Lowercase} {q : String} {f : FieldName} {n : UInt64} {ws : List String}

theorem isWord_of_plain {word : String} (h : IsPlainWord word) : IsWord word.toList := by
  refine ⟨fun hnil => h.1 (String.toList_eq_nil_iff.mp hnil), fun c hc => ?_⟩
  have hplain := h.2 c hc
  rw [isPlain, Bool.and_eq_true, Bool.not_eq_true'] at hplain
  exact hplain.2

/-- The tokens behind a pipe. -/
def lowerWords (lower : String → String) (text : List Char) : List String :=
  (words text).map fun word => lower (String.ofList word)

/-- What is written behind a query. -/
def piped (ws : List String) : List Char :=
  ' ' :: '|' :: ' ' :: [' '].intercalate (ws.map String.toList)

theorem words_blank (hws : ∀ w ∈ ws, IsPlainWord w) :
    words (' ' :: [' '].intercalate (ws.map String.toList)) = ws.map String.toList := by
  have hwords : ∀ w ∈ ws.map String.toList, IsWord w := by
    intro w hw
    obtain ⟨s, hs, rfl⟩ := List.mem_map.mp hw
    exact isWord_of_plain (hws s hs)
  exact (words_append (c := ' ') rfl [] _).trans (words_intercalate hwords)

theorem words_piped (hws : ∀ w ∈ ws, IsPlainWord w) (behind : List Char) :
    words (behind ++ piped ws) = words behind ++ ['|'] :: ws.map String.toList := by
  have hpipe : words ('|' :: ' ' :: [' '].intercalate (ws.map String.toList)) =
      ['|'] :: ws.map String.toList := by
    have hbehind := words_append (c := ' ') rfl ['|'] ([' '].intercalate (ws.map String.toList))
    have hblank := words_append (c := ' ') rfl [] ([' '].intercalate (ws.map String.toList))
    rw [List.nil_append, words_blank hws] at hblank
    exact hbehind.trans (congrArg _ hblank.symm)
  rw [piped, words_append (c := ' ') rfl, hpipe]

theorem map_lower (hws : ∀ w ∈ ws, IsPlainWord w) :
    (ws.map String.toList).map (fun word => lower.lower (String.ofList word)) = ws := by
  rw [List.map_map]
  refine (List.map_congr_left fun w hw => ?_).trans (List.map_id ws)
  exact (congrArg lower.lower String.ofList_toList).trans (lower.plain w (hws w hw))

theorem lowerWords_piped (hws : ∀ w ∈ ws, IsPlainWord w) (behind : List Char) :
    lowerWords lower.lower (behind ++ piped ws) = lowerWords lower.lower behind ++ "|" :: ws := by
  have hpipe : lower.lower (String.ofList ['|']) = "|" := lower.plain "|" (by decide)
  rw [lowerWords, words_piped hws, List.map_append, List.map_cons, map_lower hws, hpipe]
  rfl

theorem parseHuntPipe_split (lower : String → String) {input : String} {before behind : List Char}
    (hinput : input.toList = before ++ '|' :: behind) (hbefore : '|' ∉ before)
    (hsome : words behind ≠ []) :
    parseHuntPipe lower input =
      (parseAggregation (String.ofList (trim behind)) (lowerWords lower behind)).map
        fun agg => (String.ofList (trim before), some agg) := by
  have htrim : trim behind ≠ [] := by
    intro hnil
    rw [← words_trim, hnil] at hsome
    exact hsome rfl
  rw [parseHuntPipe, hinput, splitOnce_append hbefore]
  dsimp only
  rw [if_neg htrim, words_trim]
  rfl

/-- Behind a query without a pipe the words are read as they are written. -/
theorem parseHuntPipe_plain (lower : Lowercase) {input : String}
    (hinput : input.toList = q.toList ++ piped ws) (hq : '|' ∉ q.toList) (hne : ws ≠ [])
    (hws : ∀ w ∈ ws, IsPlainWord w) :
    ∃ text, parseHuntPipe lower.lower input =
      (parseAggregation text ws).map fun agg => (trimText q, some agg) := by
  have hsplit : input.toList = (q.toList ++ [' ']) ++
      '|' :: ' ' :: [' '].intercalate (ws.map String.toList) := by
    rw [hinput, piped, List.append_assoc]
    rfl
  have hout : '|' ∉ q.toList ++ [' '] := by
    rw [List.mem_append, not_or]
    exact ⟨hq, by decide⟩
  have hsome : words (' ' :: [' '].intercalate (ws.map String.toList)) ≠ [] := by
    rw [words_blank hws]
    exact fun hnil => hne (List.map_eq_nil_iff.mp hnil)
  have htrim : trim (q.toList ++ [' ']) = trim q.toList := trimWith_concat rfl q.toList
  have hparse := parseHuntPipe_split lower.lower hsplit hout hsome
  rw [lowerWords, words_blank hws, map_lower hws, htrim] at hparse
  exact ⟨_, hparse⟩

/-- Behind a query with a pipe of its own they come after a pipe as a word. -/
theorem parseHuntPipe_piped (lower : Lowercase) {input : String} {before behind : List Char}
    (hinput : input.toList = q.toList ++ piped ws) (hq : q.toList = before ++ '|' :: behind)
    (hbefore : '|' ∉ before) (hws : ∀ w ∈ ws, IsPlainWord w) :
    ∃ text, parseHuntPipe lower.lower input =
      (parseAggregation text (lowerWords lower.lower behind ++ "|" :: ws)).map
        fun agg => (String.ofList (trim before), some agg) := by
  have hsplit : input.toList = before ++ '|' :: (behind ++ piped ws) := by
    rw [hinput, hq, List.append_assoc, List.cons_append]
  have hsome : words (behind ++ piped ws) ≠ [] := by
    rw [words_piped hws]
    exact List.append_ne_nil_of_right_ne_nil _ (List.cons_ne_nil _ _)
  have hparse := parseHuntPipe_split lower.lower hsplit hbefore hsome
  rw [lowerWords_piped hws] at hparse
  exact ⟨_, hparse⟩

/-! ## The two aggregations -/

def countWords (f : FieldName) : List String := ["count", "by", f.name]

def topWords (n : UInt64) (f : FieldName) : List String := ["top", toString n.toNat, f.name]

theorem toList_countBy (q : String) (f : FieldName) :
    (countBy q f).toList = q.toList ++ piped (countWords f) := by
  rw [countBy, String.toList_append, String.toList_append, List.append_assoc]
  simp [piped, countWords, List.intercalate_cons_cons]

theorem toList_topOf (q : String) (n : UInt64) (f : FieldName) :
    (topOf q n f).toList = q.toList ++ piped (topWords n f) := by
  simp only [topOf, piped, topWords, String.toList_append, List.map_cons, List.map_nil,
    List.intercalate_cons_cons, List.intercalate_singleton, List.append_assoc]
  rfl

theorem plain_countWords (f : FieldName) : ∀ w ∈ countWords f, IsPlainWord w := by
  intro w hw
  rcases List.mem_cons.mp hw with rfl | hw
  · decide
  rcases List.mem_cons.mp hw with rfl | hw
  · decide
  obtain rfl := List.mem_singleton.mp hw
  exact f.plain

theorem toList_toString (n : ℕ) : (toString n).toList = Nat.toDigits 10 n := String.toList_ofList

theorem isPlain_of_isDigit {c : Char} (h : c.isDigit = true) : isPlain c = true := by
  have hspace : isWhiteSpace c = false := by
    by_contra hblank
    have hletter := not_isAlphanum_of_isWhiteSpace (Bool.not_eq_false _ ▸ hblank)
    rw [Char.isAlphanum, h, Bool.or_true] at hletter
    cases hletter
  simp only [Char.isDigit, Bool.and_eq_true, decide_eq_true_eq, ge_iff_le, UInt32.le_iff_toNat_le,
    Char.reduceVal, UInt32.reduceToNat] at h
  rw [isPlain, hspace]
  delta Char.isUpper
  simp only [Bool.and_eq_true, Bool.not_eq_true', decide_eq_true_eq, decide_eq_false_iff_not,
    ge_iff_le, UInt32.le_iff_toNat_le, Char.toNat, UInt32.reduceToNat, Char.reduceVal,
    Bool.not_false, and_true]
  omega

theorem plain_topWords (n : UInt64) (f : FieldName) : ∀ w ∈ topWords n f, IsPlainWord w := by
  intro w hw
  rcases List.mem_cons.mp hw with rfl | hw
  · decide
  rcases List.mem_cons.mp hw with rfl | hw
  · refine ⟨fun hnil => ?_, fun c hc => ?_⟩
    · have hdigits := toList_toString n.toNat
      rw [hnil] at hdigits
      exact Nat.toDigits_ne_nil hdigits.symm
    · rw [toList_toString] at hc
      exact isPlain_of_isDigit (Nat.isDigit_of_mem_toDigits (by decide) (by decide) hc)
  obtain rfl := List.mem_singleton.mp hw
  exact f.plain

theorem parseHuntPipe_countBy (hq : '|' ∉ q.toList) :
    parseHuntPipe lower.lower (countBy q f) = .ok (trimText q, some (.count (some f.name))) := by
  obtain ⟨text, hparse⟩ := parseHuntPipe_plain lower (toList_countBy q f) hq
    (List.cons_ne_nil _ _) (plain_countWords f)
  rw [hparse, countWords, parseAggregation]
  rfl

theorem parseHuntPipe_topOf (hq : '|' ∉ q.toList) :
    parseHuntPipe lower.lower (topOf q n f) = .ok (trimText q, some (.top n.toNat f.name)) := by
  obtain ⟨text, hparse⟩ := parseHuntPipe_plain lower (toList_topOf q n f) hq
    (List.cons_ne_nil _ _) (plain_topWords n f)
  have hlimit : parseUnsigned 64 (toString n.toNat).toList = some n.toNat := by
    rw [toList_toString]
    exact parseUnsigned_toDigits n.toNat_lt
  rw [hparse, topWords]
  simp only [parseAggregation, hlimit]
  rfl

/-- What is read of an aggregation does not depend on what stands behind a pipe as a word. -/
theorem parseAggregation_piped (text text' : String) (tokens : List String) (w w' : String)
    (ws ws' : List String) :
    (parseAggregation text (tokens ++ "|" :: w :: ws)).toOption =
      (parseAggregation text' (tokens ++ "|" :: w' :: ws')).toOption := by
  have hby : "|" ≠ "by" := by decide
  have hlimit : parseUnsigned 64 "|".toList = none := by decide
  match tokens with
  | [] => rfl
  | [name] =>
    simp only [List.cons_append, List.nil_append, parseAggregation, hby, hlimit, if_false]
    split_ifs <;> rfl
  | name :: [word] =>
    simp only [List.cons_append, List.nil_append, parseAggregation]
    split_ifs <;> rfl
  | name :: word :: field :: tokens =>
    simp only [List.cons_append, parseAggregation]
    split_ifs <;> rfl

theorem parseHuntPipe_toOption (hq : '|' ∈ q.toList) :
    (parseHuntPipe lower.lower (topOf q n f)).toOption =
      (parseHuntPipe lower.lower (countBy q f)).toOption := by
  obtain ⟨before, behind, hsplit, hbefore⟩ := List.eq_append_cons_of_mem hq
  obtain ⟨text, htop⟩ := parseHuntPipe_piped lower (toList_topOf q n f) hsplit hbefore
    (plain_topWords n f)
  obtain ⟨text', hcount⟩ := parseHuntPipe_piped lower (toList_countBy q f) hsplit hbefore
    (plain_countWords f)
  have hagg := parseAggregation_piped text text' (lowerWords lower.lower behind) "top" "count"
    [toString n.toNat, f.name] ["by", f.name]
  have hmap (e : Except String HuntAggregation)
      (g : HuntAggregation → String × Option HuntAggregation) :
      (e.map g).toOption = e.toOption.map g := by
    cases e <;> rfl
  rw [htop, hcount, hmap, hmap]
  exact congrArg _ hagg

end Wardex.Hunt
