import Wardex.Yara.Engine

/-! When the locations a rule reports are the places in the buffer where its strings stand. -/

namespace Wardex.Yara

open Wardex.Lib Wardex.Audit

/-! ## Lines in the buffer -/

/-- Each line with all that stands before it. -/
def placed : (front : List UInt8) → List (List UInt8) → List (List UInt8 × List UInt8)
  | _, [] => []
  | front, line :: lines => (front, line) :: placed (front ++ line ++ [newline]) lines

def linesOf (data : List UInt8) : List (List UInt8 × List UInt8) :=
  placed [] (data.splitOn newline)

/-- Nothing stands before, or a whole line. -/
def AtLineStart (front : List UInt8) : Prop := front = [] ∨ ∃ lines, front = lines ++ [newline]

section Lines

variable {front line back data : List UInt8}

theorem fromUtf8Lossy_append (h : AtLineStart front) (rest : List UInt8) :
    fromUtf8Lossy (front ++ rest) = fromUtf8Lossy front ++ fromUtf8Lossy rest := by
  rcases h with rfl | ⟨lines, rfl⟩
  · rfl
  · rw [List.append_assoc, List.singleton_append, fromUtf8Lossy_append_newline,
      fromUtf8Lossy_append_newline]
    simp

/-- The next line begins behind the line and its newline. -/
theorem utf8Length_next_line (h : AtLineStart front) (line : List UInt8) :
    utf8Length (fromUtf8Lossy (front ++ line ++ [newline])) =
      utf8Length (fromUtf8Lossy front) + (utf8Length (fromUtf8Lossy line) + 1) := by
  rw [List.append_assoc, fromUtf8Lossy_append h, fromUtf8Lossy_append_newline, utf8Length_append,
    utf8Length_append]
  rfl

theorem utf8Length_lossy (data : List UInt8) :
    utf8Length (fromUtf8Lossy data) = data.length + drift data := by
  rw [← length_encode, length_lossy]

theorem placed_spec {lines : List (List UInt8)} (hne : lines ≠ []) {p : List UInt8 × List UInt8}
    (hstart : AtLineStart front) (h : p ∈ placed front lines) :
    AtLineStart p.1 ∧ ∃ back, front ++ [newline].intercalate lines = p.1 ++ p.2 ++ back ∧
      ∀ b ∈ back.head?, b = newline := by
  induction lines generalizing front with
  | nil => exact absurd rfl hne
  | cons line lines ih =>
    rcases List.mem_cons.mp h with rfl | h
    · refine ⟨hstart, ?_⟩
      cases lines with
      | nil => exact ⟨[], by simp, by simp⟩
      | cons next lines =>
        refine ⟨newline :: [newline].intercalate (next :: lines), ?_, by simp⟩
        rw [List.intercalate_cons_cons]
        simp
    · cases lines with
      | nil => cases h
      | cons next lines =>
        have hnext : AtLineStart (front ++ line ++ [newline]) := .inr ⟨_, rfl⟩
        obtain ⟨hp, back, hback, hhead⟩ := ih (List.cons_ne_nil _ _) hnext h
        refine ⟨hp, back, ?_, hhead⟩
        rw [← hback, List.intercalate_cons_cons]
        simp

/-- A line of the buffer stands between what is before it and a newline or the end. -/
theorem linesOf_spec {p : List UInt8 × List UInt8} (h : p ∈ linesOf data) :
    ∃ back, data = p.1 ++ p.2 ++ back ∧ ∀ b ∈ back.head?, b = newline := by
  obtain ⟨-, back, hback, hhead⟩ := placed_spec (List.splitOn_ne_nil newline data) (.inl rfl) h
  rw [List.nil_append, List.intercalate_splitOn] at hback
  exact ⟨back, hback, hhead⟩

/-- What is read of a line stands in the buffer where it is reported exactly if the line is valid
and nothing before it was drawn out, or it stands there too by chance. -/
theorem standsAt_line_iff {p : List UInt8 × List UInt8} (h : p ∈ linesOf data) :
    StandsAt (encode (fromUtf8Lossy p.2)) data (p.1.length + drift p.1) ↔
      drift p.1 = 0 ∧ ValidUtf8 p.2 ∨
        0 < drift p.1 ∧ StandsAt (encode (fromUtf8Lossy p.2)) data (p.1.length + drift p.1) := by
  obtain ⟨front, line⟩ := p
  obtain ⟨back, rfl, hhead⟩ := linesOf_spec h
  dsimp only at hhead ⊢
  rcases Nat.eq_zero_or_pos (drift front) with hzero | hpos
  · rw [hzero, Nat.add_zero]
    constructor
    · rintro ⟨before, after, hdata, hlen⟩
      rw [List.append_assoc, List.append_assoc] at hdata
      obtain ⟨-, hrest⟩ := List.append_inj hdata hlen.symm
      exact .inl ⟨rfl, validUtf8_of_prefix hhead ⟨after, hrest.symm⟩⟩
    · rintro (⟨-, hvalid⟩ | ⟨hpos, -⟩)
      · rw [validUtf8_iff.mp hvalid]
        exact ⟨front, back, rfl, rfl⟩
      · exact absurd hpos (Nat.lt_irrefl 0)
  · exact ⟨fun hstands => .inr ⟨hpos, hstands⟩,
      fun hor => hor.elim (fun hz => absurd hz.1 hpos.ne') And.right⟩

end Lines

/-! ## What is reported -/

section Meaning

variable (toLowercase : List Char → List Char)

/-- The location is a part of the buffer. -/
def MatchLocation.Within (loc : MatchLocation) (data : List UInt8) : Prop :=
  loc.offset + loc.length ≤ data.length ∧ slice data loc.offset loc.length = loc.matchedBytes

/-- The bytes a text or a byte sequence is sought by. -/
def StringPattern.needle : StringPattern → Option (List UInt8)
  | .text content => some (asBytes content)
  | .hex content => some content
  | .glob _ => none

/-- The string stands in the buffer at that offset, up to the case of its letters if so marked. -/
def RuleString.StandsAt (rs : RuleString) (needle data : List UInt8) (offset : Nat) : Prop :=
  Yara.StandsAt (foldCase rs.nocase needle) (foldCase rs.nocase data) offset

/-- Every location is a part of the buffer, and those of a text or a byte sequence are all the
places where it stands. -/
structure Faithful (strings : List RuleString) (result : ScanResult) (data : List UInt8) :
    Prop where
  within : ∀ loc ∈ result.locations, loc.Within data
  everywhere : ∀ rs ∈ strings, ∀ needle ∈ rs.pattern.needle, ∀ offset,
    (∃ loc ∈ result.locations, loc.stringId = rs.id ∧ loc.offset = offset) ↔
      rs.StandsAt needle data offset

/-- A search for the string alone stops at that offset. -/
def FoundAt (data : List UInt8) (rs : RuleString) (offset : Nat) : Prop :=
  match rs.pattern with
  | .text text => asBytes text ≠ [] ∧ rs.StandsAt (asBytes text) data offset
  | .hex bytes => bytes ≠ [] ∧ StandsAt bytes data offset
  | .glob pattern => ∃ p ∈ linesOf data,
      LineMatches toLowercase pattern.toList (fromUtf8Lossy p.2) rs.nocase ∧
        offset = p.1.length + drift p.1

/-- What a buffer must be like for the strings of a rule to be located in it. -/
structure Locatable (strings : List RuleString) (data : List UInt8) : Prop where
  /-- There is something to look for, and it does not stand there in another case only. -/
  sought : ∀ rs ∈ lastOnes strings, ∀ needle ∈ rs.pattern.needle, needle ≠ [] ∧
    ∀ bytes, rs.pattern = .hex bytes → ∀ offset, rs.StandsAt bytes data offset →
      StandsAt bytes data offset
  /-- A string whose id comes again stands where the last string of that id is found. -/
  repeated : ∀ rs ∈ strings, ∀ needle ∈ rs.pattern.needle, ∀ last ∈ lastOf rs.id strings,
    last ≠ rs → ∀ offset, FoundAt toLowercase data last offset ↔ rs.StandsAt needle data offset
  /-- A matching line is valid, with nothing before it drawn out, or stands by chance just as far
  behind as what is before it was drawn out. -/
  lines : ∀ rs ∈ lastOnes strings, ∀ pattern, rs.pattern = .glob pattern → ∀ p ∈ linesOf data,
    LineMatches toLowercase pattern.toList (fromUtf8Lossy p.2) rs.nocase →
      drift p.1 = 0 ∧ ValidUtf8 p.2 ∨
        0 < drift p.1 ∧ StandsAt (encode (fromUtf8Lossy p.2)) data (p.1.length + drift p.1)

end Meaning

section Reported

variable {toLowercase : List Char → List Char} {data : List UInt8} {rs : RuleString}

theorem findGlobFrom_eq {pattern : List Char} {id : String} {nocase : Bool} {front : List UInt8}
    (hstart : AtLineStart front) (lines : List (List UInt8)) :
    findGlobFrom toLowercase pattern id nocase (utf8Length (fromUtf8Lossy front))
        (lines.map fromUtf8Lossy) =
      ((placed front lines).filter fun p =>
        globMatch toLowercase pattern (fromUtf8Lossy p.2) nocase).map fun p =>
          { stringId := id
            offset := p.1.length + drift p.1
            length := utf8Length (fromUtf8Lossy p.2)
            matchedBytes := encode (fromUtf8Lossy p.2) } := by
  induction lines generalizing front with
  | nil => rfl
  | cons line lines ih =>
    have hnext : AtLineStart (front ++ line ++ [newline]) := .inr ⟨_, rfl⟩
    rw [List.map_cons, findGlobFrom, ← utf8Length_next_line hstart, ih hnext, placed,
      List.filter_cons]
    dsimp only
    split_ifs with h
    · rw [List.map_cons, utf8Length_lossy front]
      rfl
    · rfl

theorem mem_findGlob {pattern : List Char} {id : String} {nocase : Bool} {loc : MatchLocation} :
    loc ∈ findGlob toLowercase data pattern id nocase ↔ ∃ p ∈ linesOf data,
      LineMatches toLowercase pattern (fromUtf8Lossy p.2) nocase ∧
        loc = ⟨id, p.1.length + drift p.1, utf8Length (fromUtf8Lossy p.2),
          encode (fromUtf8Lossy p.2)⟩ := by
  have hfind : findGlob toLowercase data pattern id nocase =
      findGlobFrom toLowercase pattern id nocase (utf8Length (fromUtf8Lossy []))
        ((data.splitOn newline).map fromUtf8Lossy) := by
    rw [← splitOn_fromUtf8Lossy]
    rfl
  rw [hfind, findGlobFrom_eq (.inl rfl), List.mem_map]
  constructor
  · rintro ⟨p, hp, rfl⟩
    obtain ⟨hline, hmatches⟩ := List.mem_filter.mp hp
    exact ⟨p, hline, globMatch_eq_true_iff.mp hmatches, rfl⟩
  · rintro ⟨p, hline, hmatches, rfl⟩
    exact ⟨p, List.mem_filter.mpr ⟨hline, globMatch_eq_true_iff.mpr hmatches⟩, rfl⟩

theorem mem_findText {needle : List UInt8} {id : String} {nocase : Bool} {loc : MatchLocation}
    (h : loc ∈ findText data needle id nocase) : loc.stringId = id ∧ loc.Within data := by
  rw [findText] at h
  split_ifs at h
  · cases h
  · obtain ⟨offset, hoffset, rfl⟩ := List.mem_map.mp h
    obtain ⟨-, hfits⟩ := List.mem_filter.mp hoffset
    obtain ⟨hlen, -⟩ := of_decide_eq_true hfits
    rw [length_foldCase nocase data] at hlen
    exact ⟨rfl, hlen, rfl⟩

theorem mem_offsets_findPattern {offset : Nat} :
    offset ∈ (findPattern toLowercase rs data).map MatchLocation.offset ↔
      FoundAt toLowercase data rs offset := by
  unfold findPattern FoundAt
  cases rs.pattern with
  | text text => exact mem_offsets_findText
  | hex bytes => exact mem_offsets_findText
  | glob pattern =>
    rw [List.mem_map]
    constructor
    · rintro ⟨loc, hloc, rfl⟩
      obtain ⟨p, hp, hmatches, rfl⟩ := mem_findGlob.mp hloc
      exact ⟨p, hp, hmatches, rfl⟩
    · rintro ⟨p, hp, hmatches, rfl⟩
      exact ⟨_, mem_findGlob.mpr ⟨p, hp, hmatches, rfl⟩, rfl⟩

theorem stringId_of_mem {loc : MatchLocation} (h : loc ∈ findPattern toLowercase rs data) :
    loc.stringId = rs.id := by
  unfold findPattern at h
  cases hpattern : rs.pattern with
  | text text =>
    rw [hpattern] at h
    exact (mem_findText h).1
  | hex bytes =>
    rw [hpattern] at h
    exact (mem_findText h).1
  | glob pattern =>
    rw [hpattern] at h
    obtain ⟨p, -, -, rfl⟩ := mem_findGlob.mp h
    rfl

theorem mem_locations (order : HashTable.IterationOrder String (List MatchLocation))
    {rule : YaraRule} (hlarge : tooLarge rule.condition data = false) {loc : MatchLocation} :
    loc ∈ (evaluateRule toLowercase order rule data).locations ↔
      ∃ rs ∈ lastOnes rule.strings, loc ∈ findPattern toLowercase rs data := by
  rw [evaluateRule, if_neg (by simp [hlarge])]
  dsimp only
  rw [List.mem_flatten]
  simp only [(values_arrange order rule.strings).mem_iff, List.mem_map, exists_exists_and_eq_and]

theorem locations_tooLarge (order : HashTable.IterationOrder String (List MatchLocation))
    {rule : YaraRule} (hlarge : tooLarge rule.condition data = true) :
    (evaluateRule toLowercase order rule data).locations = [] := by
  rw [evaluateRule, if_pos hlarge]

end Reported

/-! ## When what is reported is faithful -/

section Faithfulness

variable {toLowercase : List Char → List Char} {data : List UInt8} {strings : List RuleString}
  {rs : RuleString}

theorem standsAt_foldCase {needle : List UInt8} {nocase : Bool} {offset : Nat}
    (h : StandsAt needle data offset) :
    StandsAt (foldCase nocase needle) (foldCase nocase data) offset := by
  unfold foldCase
  split_ifs
  · obtain ⟨front, back, rfl, rfl⟩ := h
    exact ⟨front.map toAsciiLowercase, back.map toAsciiLowercase, by simp, by simp⟩
  · exact h

/-- The empty string stands at the front of every buffer. -/
theorem standsAt_nil (rs : RuleString) (data : List UInt8) : rs.StandsAt [] data 0 := by
  have hempty : foldCase rs.nocase [] = [] := by
    unfold foldCase
    split_ifs <;> rfl
  rw [RuleString.StandsAt, hempty]
  exact ⟨[], foldCase rs.nocase data, rfl, rfl⟩

/-- A text or a byte sequence is found just where it stands if there is something to look for and
it does not stand there in another case only. -/
theorem foundAt_own_iff {needle : List UInt8} (hneedle : rs.pattern.needle = some needle) :
    (∀ offset, FoundAt toLowercase data rs offset ↔ rs.StandsAt needle data offset) ↔
      needle ≠ [] ∧ ∀ bytes, rs.pattern = .hex bytes → ∀ offset, rs.StandsAt bytes data offset →
        StandsAt bytes data offset := by
  unfold FoundAt
  cases hpattern : rs.pattern with
  | text content =>
    rw [hpattern] at hneedle
    obtain rfl := Option.some.inj hneedle
    constructor
    · intro h
      refine ⟨fun hempty => ?_, fun bytes hbytes => nomatch hbytes⟩
      have hfound := (h 0).mpr (hempty ▸ standsAt_nil rs data)
      exact hfound.1 hempty
    · rintro ⟨hne, -⟩ offset
      exact ⟨And.right, fun hstands => ⟨hne, hstands⟩⟩
  | hex content =>
    rw [hpattern] at hneedle
    obtain rfl := Option.some.inj hneedle
    constructor
    · intro h
      refine ⟨fun hempty => ?_, fun bytes hbytes offset hstands => ?_⟩
      · have hfound := (h 0).mpr (hempty ▸ standsAt_nil rs data)
        exact hfound.1 hempty
      · obtain rfl := StringPattern.hex.inj hbytes
        exact ((h offset).mpr hstands).2
    · rintro ⟨hne, hcase⟩ offset
      exact ⟨fun hfound => standsAt_foldCase hfound.2, fun hstands =>
        ⟨hne, hcase content rfl offset hstands⟩⟩
  | glob pattern =>
    rw [hpattern] at hneedle
    cases hneedle

/-- The lines a glob reports are parts of the buffer. -/
theorem within_findPattern_iff :
    (∀ loc ∈ findPattern toLowercase rs data, loc.Within data) ↔
      ∀ pattern, rs.pattern = .glob pattern → ∀ p ∈ linesOf data,
        LineMatches toLowercase pattern.toList (fromUtf8Lossy p.2) rs.nocase →
          drift p.1 = 0 ∧ ValidUtf8 p.2 ∨
            0 < drift p.1 ∧
              StandsAt (encode (fromUtf8Lossy p.2)) data (p.1.length + drift p.1) := by
  have hline : ∀ p : List UInt8 × List UInt8,
      MatchLocation.Within ⟨rs.id, p.1.length + drift p.1, utf8Length (fromUtf8Lossy p.2),
        encode (fromUtf8Lossy p.2)⟩ data ↔
          StandsAt (encode (fromUtf8Lossy p.2)) data (p.1.length + drift p.1) := by
    intro p
    rw [MatchLocation.Within, standsAt_iff, length_encode]
  unfold findPattern
  cases hpattern : rs.pattern with
  | text content => exact ⟨fun _ pattern h => (nomatch h), fun _ loc hloc => (mem_findText hloc).2⟩
  | hex content => exact ⟨fun _ pattern h => (nomatch h), fun _ loc hloc => (mem_findText hloc).2⟩
  | glob pattern =>
    constructor
    · intro h glob hglob p hp hmatches
      obtain rfl := StringPattern.glob.inj hglob
      exact (standsAt_line_iff hp).mp ((hline p).mp (h _ (mem_findGlob.mpr ⟨p, hp, hmatches, rfl⟩)))
    · intro h loc hloc
      obtain ⟨p, hp, hmatches, rfl⟩ := mem_findGlob.mp hloc
      exact (hline p).mpr ((standsAt_line_iff hp).mpr (h pattern rfl p hp hmatches))

theorem mem_lastOnes_iff : rs ∈ lastOnes strings ↔ lastOf rs.id strings = some rs :=
  ⟨lastOf_of_mem, fun h => (mem_of_lastOf h).1⟩

/-- Under an id stands what is found for the last string that has it. -/
theorem reported_iff (order : HashTable.IterationOrder String (List MatchLocation))
    {rule : YaraRule} (hlarge : tooLarge rule.condition data = false) {last : RuleString}
    {id : String} (hlast : lastOf id rule.strings = some last) {offset : Nat} :
    (∃ loc ∈ (evaluateRule toLowercase order rule data).locations,
        loc.stringId = id ∧ loc.offset = offset) ↔ FoundAt toLowercase data last offset := by
  obtain ⟨hmem, rfl⟩ := mem_of_lastOf hlast
  rw [← mem_offsets_findPattern, List.mem_map]
  simp only [mem_locations order hlarge]
  constructor
  -- a location carries the id of its string, and under an id there is one string only
  · rintro ⟨loc, ⟨rs, hrs, hloc⟩, hid, rfl⟩
    have hsame : lastOf last.id rule.strings = some rs := by
      rw [← hid, stringId_of_mem hloc]
      exact lastOf_of_mem hrs
    obtain rfl := Option.some.inj (hlast.symm.trans hsame)
    exact ⟨loc, hloc, rfl⟩
  · rintro ⟨loc, hloc, rfl⟩
    exact ⟨loc, ⟨last, hmem, hloc⟩, stringId_of_mem hloc, rfl⟩

theorem faithful_iff_locatable (order : HashTable.IterationOrder String (List MatchLocation))
    {rule : YaraRule} (hlarge : tooLarge rule.condition data = false) :
    Faithful rule.strings (evaluateRule toLowercase order rule data) data ↔
      Locatable toLowercase rule.strings data := by
  constructor
  · intro h
    have hfound : ∀ rs ∈ rule.strings, ∀ needle ∈ rs.pattern.needle,
        ∀ last ∈ lastOf rs.id rule.strings, ∀ offset,
          FoundAt toLowercase data last offset ↔ rs.StandsAt needle data offset := by
      intro rs hrs needle hneedle last hlast offset
      rw [← reported_iff order hlarge hlast]
      exact h.everywhere rs hrs needle hneedle offset
    refine ⟨fun rs hrs needle hneedle => ?_,
      fun rs hrs needle hneedle last hlast _ => hfound rs hrs needle hneedle last hlast,
      fun rs hrs => within_findPattern_iff.mp fun loc hloc =>
        h.within loc ((mem_locations order hlarge).mpr ⟨rs, hrs, hloc⟩)⟩
    exact (foundAt_own_iff hneedle).mp (hfound rs (mem_of_mem_lastOnes hrs) needle hneedle rs
      (lastOf_of_mem hrs))
  · intro h
    constructor
    · intro loc hloc
      obtain ⟨rs, hrs, hfound⟩ := (mem_locations order hlarge).mp hloc
      exact within_findPattern_iff.mpr (h.lines rs hrs) loc hfound
    · intro rs hrs needle hneedle offset
      obtain ⟨last, hlast⟩ := Option.isSome_iff_exists.mp
        (lastOf_isSome.mpr (List.mem_map_of_mem hrs))
      rw [reported_iff order hlarge hlast]
      -- the last string of its id is found by its own search, an earlier one by the last's
      by_cases hsame : last = rs
      · subst hsame
        exact (foundAt_own_iff hneedle).mpr
          (h.sought last (mem_lastOnes_iff.mpr hlast) needle hneedle) offset
      · exact h.repeated rs hrs needle hneedle last hlast hsame offset

/-- A rule's locations are faithful exactly if the buffer is too large and nothing stands in it, or
not too large and the strings can be located in it. -/
theorem locations_faithful_iff (order : HashTable.IterationOrder String (List MatchLocation))
    (rule : YaraRule) (data : List UInt8) :
    Faithful rule.strings (evaluateRule toLowercase order rule data) data ↔
      if tooLarge rule.condition data then
        ∀ rs ∈ rule.strings, ∀ needle ∈ rs.pattern.needle, ∀ offset,
          ¬ rs.StandsAt needle data offset
      else Locatable toLowercase rule.strings data := by
  split_ifs with hlarge
  · have hnone : (evaluateRule toLowercase order rule data).locations = [] :=
      locations_tooLarge order hlarge
    constructor
    · intro h rs hrs needle hneedle offset hstands
      obtain ⟨loc, hloc, -⟩ := (h.everywhere rs hrs needle hneedle offset).mpr hstands
      rw [hnone] at hloc
      cases hloc
    · intro h
      refine ⟨fun loc hloc => ?_, fun rs hrs needle hneedle offset => ⟨?_, fun hstands =>
        absurd hstands (h rs hrs needle hneedle offset)⟩⟩
      · rw [hnone] at hloc
        cases hloc
      · rintro ⟨loc, hloc, -⟩
        rw [hnone] at hloc
        cases hloc
  · exact faithful_iff_locatable order (by simpa using hlarge)

/-- A glob for a line of one letter. -/
def letterGlob : YaraRule where
  name := "letter_glob"
  ruleMeta := ⟨"Low"⟩
  strings := [⟨"$a", .glob "a", false⟩]
  condition := .anyOf

/-- Behind a byte that is no UTF-8 the line is reported beyond the end of the buffer. -/
theorem letterGlob_beyond_end :
    ¬ Faithful letterGlob.strings
      (evaluateRule (List.map Char.toLower) .asIs letterGlob [0xFF, 10, 97]) [0xFF, 10, 97] := by
  intro h
  have hmem : ⟨"$a", 4, 1, [97]⟩ ∈
      (evaluateRule (List.map Char.toLower) .asIs letterGlob [0xFF, 10, 97]).locations := by decide
  exact absurd (h.within _ hmem).1 (by decide)

end Faithfulness

end Wardex.Yara
