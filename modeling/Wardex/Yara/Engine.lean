import Mathlib.Data.List.Dedup
import Wardex.Lib.Glob
import Wardex.Lib.HashTable
import Wardex.Yara.Lossy

/-! The rule engine: texts, byte sequences and globs searched for in a buffer, and the condition of
a rule over what was found; and when the verdict of a rule agrees with the number of its strings
that occur.  The lower case of a text is a parameter. -/

namespace Wardex.Yara

open Wardex.Lib Wardex.Audit

inductive StringPattern where
  | text (text : String)
  | hex (bytes : List UInt8)
  | glob (pattern : String)
deriving DecidableEq

structure RuleString where
  id : String
  pattern : StringPattern
  nocase : Bool
deriving DecidableEq

inductive RuleCondition where
  | allOf
  | anyOf
  | atLeast (n : Nat)
  | allOfWithMaxSize (max : Nat)
deriving DecidableEq

structure RuleMeta where
  severity : String
deriving DecidableEq

structure YaraRule where
  name : String
  ruleMeta : RuleMeta
  strings : List RuleString
  condition : RuleCondition
deriving DecidableEq

structure MatchLocation where
  stringId : String
  offset : Nat
  length : Nat
  matchedBytes : List UInt8
deriving DecidableEq

structure ScanResult where
  ruleName : String
  matched : Bool
  severity : String
  locations : List MatchLocation
deriving DecidableEq

/-- `u8::to_ascii_lowercase`. -/
def toAsciiLowercase (b : UInt8) : UInt8 := if 65 ≤ b ∧ b ≤ 90 then b + 32 else b

def foldCase (nocase : Bool) (bytes : List UInt8) : List UInt8 :=
  if nocase then bytes.map toAsciiLowercase else bytes

def slice (data : List UInt8) (offset length : Nat) : List UInt8 := (data.drop offset).take length

/-- Every offset at which the needle still fits is tried. -/
def findText (data needle : List UInt8) (id : String) (nocase : Bool) : List MatchLocation :=
  if needle.isEmpty then []
  else
    let haystack := foldCase nocase data
    let needleNorm := foldCase nocase needle
    let offsets := (List.range (haystack.length + 1)).filter fun offset =>
      offset + needleNorm.length ≤ haystack.length ∧
        slice haystack offset needleNorm.length = needleNorm
    offsets.map fun offset =>
      { stringId := id
        offset
        length := needleNorm.length
        matchedBytes := slice data offset needleNorm.length }

def findBytes (data needle : List UInt8) (id : String) : List MatchLocation :=
  findText data needle id false

section

variable (toLowercase : List Char → List Char)

def globMatch (pattern text : List Char) (nocase : Bool) : Bool :=
  let pat := if nocase then toLowercase pattern else pattern
  let txt := if nocase then toLowercase text else text
  Glob.decides '*' '?' pat txt

/-- The lines from an offset on. -/
def findGlobFrom (pattern : List Char) (id : String) (nocase : Bool) :
    (offset : Nat) → List (List Char) → List MatchLocation
  | _, [] => []
  | offset, line :: lines =>
    let found :=
      if globMatch toLowercase pattern line nocase then
        [{ stringId := id
           offset
           length := utf8Length line
           matchedBytes := encode line }]
      else []
    found ++ findGlobFrom pattern id nocase (offset + (utf8Length line + 1)) lines

def findGlob (data : List UInt8) (pattern : List Char) (id : String) (nocase : Bool) :
    List MatchLocation :=
  let text := fromUtf8Lossy data
  findGlobFrom toLowercase pattern id nocase 0 (text.splitOn '\n')

def findPattern (rs : RuleString) (data : List UInt8) : List MatchLocation :=
  match rs.pattern with
  | .text text => findText data (asBytes text) rs.id rs.nocase
  | .hex bytes => findBytes data bytes rs.id
  | .glob pattern => findGlob toLowercase data pattern.toList rs.id rs.nocase

/-- What was found, by the ids of the strings. -/
def allLocations (strings : List RuleString) (data : List UInt8) :
    HashTable String (List MatchLocation) :=
  strings.foldl (fun found rs => found.insert rs.id (findPattern toLowercase rs data)) ∅

def conditionMet (condition : RuleCondition) (matchedCount totalStrings : Nat) : Bool :=
  match condition with
  | .allOf | .allOfWithMaxSize _ => matchedCount = totalStrings ∧ totalStrings > 0
  | .anyOf => matchedCount > 0
  | .atLeast n => matchedCount ≥ n

/-- The buffer is larger than the rule allows. -/
def tooLarge (condition : RuleCondition) (data : List UInt8) : Bool :=
  match condition with
  | .allOfWithMaxSize max => data.length > max
  | _ => false

def evaluateRule (order : HashTable.IterationOrder String (List MatchLocation)) (rule : YaraRule)
    (data : List UInt8) : ScanResult :=
  if tooLarge rule.condition data then
    { ruleName := rule.name, matched := false, severity := rule.ruleMeta.severity, locations := [] }
  else
    let found := order.arrange (allLocations toLowercase rule.strings data)
    let matchedCount := found.values.countP fun locs => !locs.isEmpty
    { ruleName := rule.name
      matched := conditionMet rule.condition matchedCount rule.strings.length
      severity := rule.ruleMeta.severity
      locations := found.values.flatten }

end

/-! ## Verdicts -/

/-! ## Where strings occur -/

/-- The needle stands in the buffer at that offset. -/
def StandsAt (needle data : List UInt8) (offset : Nat) : Prop :=
  ∃ front back, data = front ++ needle ++ back ∧ front.length = offset

section Meaning

variable (toLowercase : List Char → List Char)

def LineMatches (pattern line : List Char) (nocase : Bool) : Prop :=
  Glob.Matches '*' '?' (if nocase then toLowercase pattern else pattern)
    (if nocase then toLowercase line else line)

instance (pattern line : List Char) (nocase : Bool) :
    Decidable (LineMatches toLowercase pattern line nocase) :=
  inferInstanceAs (Decidable (Glob.Matches _ _ _ _))

/-- A text or a byte sequence occurs as a part of the buffer, a glob as a line of it. -/
def Occurs (data : List UInt8) (rs : RuleString) : Prop :=
  match rs.pattern with
  | .text text => foldCase rs.nocase (asBytes text) <:+: foldCase rs.nocase data
  | .hex bytes => foldCase rs.nocase bytes <:+: foldCase rs.nocase data
  | .glob pattern =>
    ∃ line ∈ (fromUtf8Lossy data).splitOn '\n',
      LineMatches toLowercase pattern.toList line rs.nocase

instance (data : List UInt8) : (rs : RuleString) → Decidable (Occurs toLowercase data rs)
  | ⟨_, .text text, nocase⟩ =>
    inferInstanceAs (Decidable (foldCase nocase (asBytes text) <:+: foldCase nocase data))
  | ⟨_, .hex bytes, nocase⟩ =>
    inferInstanceAs (Decidable (foldCase nocase bytes <:+: foldCase nocase data))
  | ⟨_, .glob pattern, nocase⟩ =>
    inferInstanceAs (Decidable (∃ line ∈ (fromUtf8Lossy data).splitOn '\n',
      LineMatches toLowercase pattern.toList line nocase))

/-- Nothing to look for, or a byte sequence that stands in the buffer only up to the case of its
letters. -/
def Overlooked (data : List UInt8) (rs : RuleString) : Prop :=
  match rs.pattern with
  | .text text => asBytes text = []
  | .hex bytes => bytes = [] ∨ ¬ bytes <:+: data
  | .glob _ => False

instance (data : List UInt8) : (rs : RuleString) → Decidable (Overlooked data rs)
  | ⟨_, .text text, _⟩ => inferInstanceAs (Decidable (asBytes text = []))
  | ⟨_, .hex bytes, _⟩ => inferInstanceAs (Decidable (bytes = [] ∨ ¬ bytes <:+: data))
  | ⟨_, .glob _, _⟩ => inferInstanceAs (Decidable False)

/-- How many of the strings occur. -/
def occurring (data : List UInt8) (strings : List RuleString) : Nat :=
  strings.countP fun rs => Occurs toLowercase data rs

/-- How many of those are overlooked or have the id of a later string. -/
def lost (data : List UInt8) : List RuleString → Nat
  | [] => 0
  | rs :: later =>
    (if Occurs toLowercase data rs ∧ (Overlooked data rs ∨ rs.id ∈ later.map RuleString.id) then 1
      else 0) + lost data later

end Meaning

/-- The condition of a rule, of a buffer of that size in which `count` of `total` strings occur. -/
def Satisfied (condition : RuleCondition) (size total count : Nat) : Prop :=
  match condition with
  | .allOf => count = total ∧ 0 < total
  | .anyOf => 0 < count
  | .atLeast n => n ≤ count
  | .allOfWithMaxSize max => size ≤ max ∧ count = total ∧ 0 < total

/-! ## The search -/

section Search

theorem length_foldCase (nocase : Bool) (bytes : List UInt8) :
    (foldCase nocase bytes).length = bytes.length := by
  unfold foldCase
  split_ifs
  · exact List.length_map _
  · rfl

theorem isInfix_foldCase {needle data : List UInt8} {nocase : Bool} (h : needle <:+: data) :
    foldCase nocase needle <:+: foldCase nocase data := by
  unfold foldCase
  split_ifs
  · exact h.map toAsciiLowercase
  · exact h

theorem standsAt_iff {needle data : List UInt8} {offset : Nat} :
    StandsAt needle data offset ↔
      offset + needle.length ≤ data.length ∧ slice data offset needle.length = needle := by
  constructor
  · rintro ⟨front, back, rfl, rfl⟩
    constructor
    · rw [List.length_append, List.length_append]
      omega
    · rw [slice, List.append_assoc, List.drop_left, List.take_left]
  · rintro ⟨hlen, hslice⟩
    refine ⟨data.take offset, (data.drop offset).drop needle.length, ?_, ?_⟩
    · conv_lhs => rw [← List.take_append_drop offset data,
        ← List.take_append_drop needle.length (data.drop offset)]
      rw [List.append_assoc]
      congr 2
    · rw [List.length_take]
      omega

theorem exists_standsAt_iff {needle data : List UInt8} :
    (∃ offset, StandsAt needle data offset) ↔ needle <:+: data := by
  constructor
  · rintro ⟨_, front, back, rfl, -⟩
    exact ⟨front, back, rfl⟩
  · rintro ⟨front, back, h⟩
    exact ⟨_, front, back, h.symm, rfl⟩

/-- The offsets reported for a needle that is not empty are those at which it stands. -/
theorem mem_offsets_findText {data needle : List UInt8} {id : String} {nocase : Bool}
    {offset : Nat} : offset ∈ (findText data needle id nocase).map MatchLocation.offset ↔
      needle ≠ [] ∧ StandsAt (foldCase nocase needle) (foldCase nocase data) offset := by
  rw [findText]
  split_ifs with hempty
  · rw [List.isEmpty_iff.mp hempty]
    simp
  · rw [List.isEmpty_iff] at hempty
    rw [List.map_map, standsAt_iff]
    simp only [Function.comp_def, List.map_id', List.mem_filter, List.mem_range, decide_eq_true_eq]
    constructor
    · rintro ⟨-, hlen, hslice⟩
      exact ⟨hempty, hlen, hslice⟩
    · rintro ⟨-, hlen, hslice⟩
      exact ⟨by omega, hlen, hslice⟩

theorem map_offset_eq_nil {locs : List MatchLocation} :
    locs.map MatchLocation.offset = [] ↔ locs = [] := List.map_eq_nil_iff

theorem findText_ne_nil {data needle : List UInt8} {id : String} {nocase : Bool} :
    findText data needle id nocase ≠ [] ↔
      needle ≠ [] ∧ foldCase nocase needle <:+: foldCase nocase data := by
  rw [Ne, ← map_offset_eq_nil, ← Ne, ← exists_standsAt_iff]
  constructor
  · intro h
    obtain ⟨offset, hoffset⟩ := List.exists_mem_of_ne_nil _ h
    obtain ⟨hne, hstands⟩ := mem_offsets_findText.mp hoffset
    exact ⟨hne, offset, hstands⟩
  · rintro ⟨hne, offset, hstands⟩
    exact List.ne_nil_of_mem (mem_offsets_findText.mpr ⟨hne, hstands⟩)

variable {toLowercase : List Char → List Char}

theorem globMatch_eq_true_iff {pattern line : List Char} {nocase : Bool} :
    globMatch toLowercase pattern line nocase = true ↔
      LineMatches toLowercase pattern line nocase := Glob.decides_iff

theorem findGlobFrom_ne_nil {pattern : List Char} {id : String} {nocase : Bool} {offset : Nat}
    {lines : List (List Char)} : findGlobFrom toLowercase pattern id nocase offset lines ≠ [] ↔
      ∃ line ∈ lines, LineMatches toLowercase pattern line nocase := by
  induction lines generalizing offset with
  | nil => simp [findGlobFrom]
  | cons line lines ih =>
    rw [findGlobFrom, Ne, List.append_eq_nil_iff, not_and_or, ← Ne, ← Ne, ih,
      List.exists_mem_cons_iff]
    refine or_congr_left ?_
    rw [← globMatch_eq_true_iff]
    split_ifs with h <;> simp [h]

theorem findPattern_ne_nil {rs : RuleString} {data : List UInt8} :
    findPattern toLowercase rs data ≠ [] ↔
      Occurs toLowercase data rs ∧ ¬ Overlooked data rs := by
  unfold findPattern Occurs Overlooked
  cases rs.pattern with
  | text text =>
    dsimp only
    rw [findText_ne_nil, and_comm]
  | hex bytes =>
    dsimp only
    rw [findBytes, findText_ne_nil, not_or, not_not]
    exact ⟨fun h => ⟨isInfix_foldCase h.2, h⟩, fun h => h.2⟩
  | glob pattern =>
    dsimp only
    rw [findGlob, findGlobFrom_ne_nil, not_false_eq_true, and_true]

end Search

/-! ## The map keyed by ids -/

section Table

/-- The strings whose id no later string has. -/
def lastOnes : List RuleString → List RuleString
  | [] => []
  | rs :: later =>
    if rs.id ∈ later.map RuleString.id then lastOnes later else rs :: lastOnes later

/-- The last string with that id. -/
def lastOf (id : String) : List RuleString → Option RuleString
  | [] => none
  | rs :: later => (lastOf id later).or (if rs.id = id then some rs else none)

variable {strings : List RuleString} {rs : RuleString} {id : String}

theorem lastOf_concat (strings : List RuleString) (rs : RuleString) (id : String) :
    lastOf id (strings ++ [rs]) = if rs.id = id then some rs else lastOf id strings := by
  induction strings with
  | nil => exact Option.none_or
  | cons first strings ih =>
    rw [List.cons_append, lastOf, ih, lastOf]
    split_ifs <;> rfl

theorem lastOf_isSome : (lastOf id strings).isSome ↔ id ∈ strings.map RuleString.id := by
  induction strings with
  | nil => simp [lastOf]
  | cons rs later ih =>
    rw [lastOf, Option.isSome_or, Bool.or_eq_true, ih, List.map_cons, List.mem_cons, or_comm]
    split_ifs with h
    · simp [h]
    · simp [Ne.symm h]

theorem map_id_lastOnes :
    (lastOnes strings).map RuleString.id = (strings.map RuleString.id).dedup := by
  induction strings with
  | nil => rfl
  | cons rs later ih =>
    rw [lastOnes, List.map_cons]
    split_ifs with h
    · rw [ih, List.dedup_cons_of_mem h]
    · rw [List.map_cons, ih, List.dedup_cons_of_notMem h]

theorem lastOf_of_mem (h : rs ∈ lastOnes strings) : lastOf rs.id strings = some rs := by
  induction strings with
  | nil => cases h
  | cons first later ih =>
    have hlater : rs ∈ lastOnes later → lastOf rs.id (first :: later) = some rs := by
      intro hmem
      rw [lastOf, ih hmem, Option.some_or]
    rw [lastOnes] at h
    split_ifs at h with hid
    · exact hlater h
    · rcases List.mem_cons.mp h with rfl | hmem
      · have hnone : lastOf rs.id later = none :=
          Option.not_isSome_iff_eq_none.mp fun hs => hid (lastOf_isSome.mp hs)
        rw [lastOf, hnone, if_pos rfl, Option.none_or]
      · exact hlater hmem

theorem mem_of_lastOf (h : lastOf id strings = some rs) : rs ∈ lastOnes strings ∧ rs.id = id := by
  have hid : id ∈ (lastOnes strings).map RuleString.id := by
    rw [map_id_lastOnes, List.mem_dedup, ← lastOf_isSome, h]
    rfl
  obtain ⟨rs', hmem, rfl⟩ := List.mem_map.mp hid
  obtain rfl := Option.some.inj ((lastOf_of_mem hmem).symm.trans h)
  exact ⟨hmem, rfl⟩

theorem mem_of_mem_lastOnes (h : rs ∈ lastOnes strings) : rs ∈ strings := by
  induction strings with
  | nil => cases h
  | cons first later ih =>
    rw [lastOnes] at h
    split_ifs at h
    · exact List.mem_cons_of_mem _ (ih h)
    · exact (List.mem_cons.mp h).elim (fun heq => heq ▸ List.mem_cons_self) fun hmem =>
        List.mem_cons_of_mem _ (ih hmem)

variable {toLowercase : List Char → List Char} {data : List UInt8}

theorem lookup_allLocations (strings : List RuleString) (id : String) :
    (allLocations toLowercase strings data).lookup id =
      (lastOf id strings).map fun rs => findPattern toLowercase rs data := by
  induction strings using List.reverseRecOn with
  | nil => rfl
  | append_singleton strings rs ih =>
    rw [allLocations, List.foldl_append, lastOf_concat]
    change ((allLocations toLowercase strings data).insert rs.id _).lookup id = _
    by_cases h : rs.id = id
    · rw [if_pos h, ← h, AList.lookup_insert]
      rfl
    · rw [if_neg h, AList.lookup_insert_ne (Ne.symm h), ih]

/-- What the map holds is what was found for the last string of each id. -/
theorem values_allLocations (strings : List RuleString) :
    (allLocations toLowercase strings data).values.Perm
      ((lastOnes strings).map fun rs => findPattern toLowercase rs data) := by
  have hlookup : ∀ id, (allLocations toLowercase strings data).lookup id =
      if id ∈ (lastOnes strings).map RuleString.id then
        some (((lastOf id strings).map fun rs => findPattern toLowercase rs data).getD [])
      else none := by
    intro id
    have hmem : id ∈ (lastOnes strings).map RuleString.id ↔ (lastOf id strings).isSome := by
      rw [map_id_lastOnes, List.mem_dedup, lastOf_isSome]
    rw [lookup_allLocations]
    cases h : lastOf id strings with
    | none => rw [if_neg (by simp [hmem, h]), Option.map_none]
    | some rs => rw [if_pos (by simp [hmem, h]), Option.map_some, Option.getD_some]
  have hperm := HashTable.values_perm (by rw [map_id_lastOnes]; exact List.nodup_dedup _) hlookup
  rw [List.map_map] at hperm
  refine hperm.trans (List.Perm.of_eq (List.map_congr_left fun rs hrs => ?_))
  rw [Function.comp_apply, lastOf_of_mem hrs]
  rfl

theorem values_arrange (order : HashTable.IterationOrder String (List MatchLocation))
    (strings : List RuleString) :
    (order.arrange (allLocations toLowercase strings data)).values.Perm
      ((lastOnes strings).map fun rs => findPattern toLowercase rs data) :=
  (order.reordered _).values_perm.symm.trans (values_allLocations strings)

end Table

/-! ## The verdict -/

section Verdict

variable {toLowercase : List Char → List Char} {data : List UInt8}

/-- What is counted is what occurs and is not lost. -/
theorem countP_lastOnes (strings : List RuleString) :
    ((lastOnes strings).map fun rs => findPattern toLowercase rs data).countP
        (fun locs => !locs.isEmpty) + lost toLowercase data strings =
      occurring toLowercase data strings := by
  have hfound : ∀ rs, (!(findPattern toLowercase rs data).isEmpty) = true ↔
      Occurs toLowercase data rs ∧ ¬ Overlooked data rs := by
    intro rs
    rw [← findPattern_ne_nil]
    simp
  induction strings with
  | nil => rfl
  | cons rs later ih =>
    rw [occurring] at ih ⊢
    rw [List.countP_cons, ← ih, lost, lastOnes]
    -- a string whose id comes again counts for nothing, since its entry is overwritten
    by_cases hid : rs.id ∈ later.map RuleString.id
    · rw [if_pos hid]
      by_cases hocc : Occurs toLowercase data rs
      · simp [hid, hocc]
        omega
      · simp [hocc]
    · rw [if_neg hid, List.map_cons, List.countP_cons]
      simp only [hfound rs]
      by_cases hocc : Occurs toLowercase data rs <;> by_cases hover : Overlooked data rs <;>
        simp [hid, hocc, hover] <;> omega

theorem evaluateRule_matched (order : HashTable.IterationOrder String (List MatchLocation))
    (rule : YaraRule) (data : List UInt8) :
    (evaluateRule toLowercase order rule data).matched = true ↔
      Satisfied rule.condition data.length rule.strings.length
        (occurring toLowercase data rule.strings - lost toLowercase data rule.strings) := by
  have hcount : (order.arrange (allLocations toLowercase rule.strings data)).values.countP
      (fun locs => !locs.isEmpty) =
        occurring toLowercase data rule.strings - lost toLowercase data rule.strings := by
    have hsum : ((lastOnes rule.strings).map fun rs => findPattern toLowercase rs data).countP
        (fun locs => !locs.isEmpty) + lost toLowercase data rule.strings =
          occurring toLowercase data rule.strings := countP_lastOnes rule.strings
    rw [(values_arrange order rule.strings).countP_eq]
    omega
  rw [evaluateRule]
  split_ifs with hlarge
  -- only a condition with a size limit is checked before the search
  · cases hcond : rule.condition <;> simp_all [tooLarge, Satisfied]
  · dsimp only
    rw [hcount]
    cases hcond : rule.condition <;> simp_all [tooLarge, Satisfied, conditionMet]

theorem occurring_le (data : List UInt8) (strings : List RuleString) :
    occurring toLowercase data strings ≤ strings.length := List.countP_le_length

/-- A condition that some strings meet is met by more of them. -/
theorem Satisfied.mono {condition : RuleCondition} {size total count more : Nat}
    (h : Satisfied condition size total count) (hle : count ≤ more) (htotal : more ≤ total) :
    Satisfied condition size total more := by
  cases condition with
  | allOf => exact ⟨le_antisymm htotal (h.1 ▸ hle), h.2⟩
  | anyOf => exact lt_of_lt_of_le h hle
  | atLeast n => exact le_trans h hle
  | allOfWithMaxSize max => exact ⟨h.1, le_antisymm htotal (h.2.1 ▸ hle), h.2.2⟩

/-- The verdict agrees with the number of strings that occur unless the condition is met only
together with strings that are lost. -/
theorem matched_exact_iff (order : HashTable.IterationOrder String (List MatchLocation))
    (rule : YaraRule) (data : List UInt8) :
    ((evaluateRule toLowercase order rule data).matched = true ↔
        Satisfied rule.condition data.length rule.strings.length
          (occurring toLowercase data rule.strings)) ↔
      (Satisfied rule.condition data.length rule.strings.length
          (occurring toLowercase data rule.strings) →
        Satisfied rule.condition data.length rule.strings.length
          (occurring toLowercase data rule.strings - lost toLowercase data rule.strings)) := by
  rw [evaluateRule_matched]
  constructor
  · exact fun h => h.mpr
  · intro h
    exact ⟨fun hseen => hseen.mono (Nat.sub_le _ _) (occurring_le data rule.strings), h⟩

/-- Two texts under one id. -/
def sharedId : YaraRule where
  name := "shared_id"
  ruleMeta := ⟨"Low"⟩
  strings := [⟨"$a", .text "ab", false⟩, ⟨"$a", .text "cd", false⟩]
  condition := .allOf

/-- Both occur, and the rule that asks for all does not match. -/
theorem sharedId_not_matched :
    Satisfied sharedId.condition (asBytes "abcd").length sharedId.strings.length
        (occurring (List.map Char.toLower) (asBytes "abcd") sharedId.strings) ∧
      (evaluateRule (List.map Char.toLower) .asIs sharedId (asBytes "abcd")).matched = false := by
  constructor
  · exact ⟨by decide, by decide⟩
  · decide

end Verdict

end Wardex.Yara
