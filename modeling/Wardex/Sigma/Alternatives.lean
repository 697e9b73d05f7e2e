import Wardex.Sigma.Condition
import Wardex.Sigma.Import

/-! Lists of maps in a selection, which are alternatives to each other, and the modifiers of their
fields. The importer puts the fields of all maps into one list. -/

namespace Wardex.Sigma

open Wardex.Lib Wardex.Policy

/-- What follows the first bar of a key. -/
def suffixOf (key : String) : Option String :=
  (splitOnce '|' key.toList).map fun p => String.ofList p.2

def comparisons : List String := ["contains", "startswith", "endswith", "re"]

section

variable (F : Type) [F64 F] (toLowercase : String → String)

/-- The value of the field against one value of the map. -/
def compares (modifier v pat : String) : Bool :=
  if modifier = "contains" then textContains (toLowercase v) (toLowercase pat)
  else if modifier = "startswith" then (toLowercase pat).toList <+: (toLowercase v).toList
  else if modifier = "endswith" then (toLowercase pat).toList <:+ (toLowercase v).toList
  else if modifier = "re" then reMatches v pat
  else eqIgnoreAsciiCase v pat

/-- The comparison that `all` is stacked on, the plain one where there is none. -/
def stackedOn (suffix : String) : Option String :=
  if suffix = "all" then some ""
  else comparisons.find? fun m => suffix = m ++ "|all"

variable (other : String → Option String → List String → Bool)

/-- What a suffix says about a value: one of the map's values compares, or all of them do where
`all` is stacked. The meaning of any other suffix is `other`. -/
def suffixMeaning (suffix found : Option String) (values : List String) : Bool :=
  match suffix with
  | none => found.any fun v => values.any (compares toLowercase "" v)
  | some suffix =>
    if suffix ∈ comparisons then found.any fun v => values.any (compares toLowercase suffix v)
    else match stackedOn suffix with
    | some modifier => found.any fun v => values.all (compares toLowercase modifier v)
    | none => other suffix found values

/-- What a field of a map says about an event. -/
def fieldMeaning (entry : String × Json) (fields : Table String) : Bool :=
  suffixMeaning toLowercase other (suffixOf entry.1) (fields (splitField entry.1).1)
    (fieldValues entry.2)

/-- The code's own verdict on one map. -/
def selects (map : List (String × Json)) (fields : Table String) : Bool :=
  (evaluateSelection F toLowercase fields (parseSigmaDetectionItem (.object map))).isSome

/-- A list of maps is read as their disjunction, and each field keeps its meaning. -/
structure ReadAsAlternatives (maps : List (List (String × Json))) : Prop where
  disjunction : ∀ fields,
    (evaluateSelection F toLowercase fields
        (parseSigmaDetectionItem (.array (maps.map Json.object)))).isSome =
      maps.any fun map => map.all fun entry => fieldMeaning toLowercase other entry fields
  meaning : ∀ map ∈ maps, ∀ entry ∈ map, ∀ fields,
    (fieldMatcher entry).holds F toLowercase fields = fieldMeaning toLowercase other entry fields

/-- A suffix that the importer does not know, `all` among them, means equality with one of the
values. -/
def SuffixKept (entry : String × Json) : Prop :=
  ∀ suffix, suffixOf entry.1 = some suffix → suffix ∉ comparisons → ∀ found : Option String,
    (found.any fun v => (fieldValues entry.2).any (eqIgnoreAsciiCase v)) =
      suffixMeaning toLowercase other (some suffix) found (fieldValues entry.2)

variable {F toLowercase other}

theorem evaluateSelection_isSome (fields : Table String) (matchers : List FieldMatcher) :
    (evaluateSelection F toLowercase fields matchers).isSome =
      matchers.all fun m => m.holds F toLowercase fields := by
  induction matchers with
  | nil => rfl
  | cons m matchers ih =>
    rw [evaluateSelection, List.all_cons, ← ih]
    cases m.holds F toLowercase fields with
    | false => rfl
    | true => exact Option.isSome_map

theorem selects_eq (map : List (String × Json)) (fields : Table String) :
    selects F toLowercase map fields =
      map.all fun entry => (fieldMatcher entry).holds F toLowercase fields := by
  rw [selects, evaluateSelection_isSome, parseSigmaDetectionItem, List.all_map]
  rfl

theorem parse_maps (maps : List (List (String × Json))) :
    parseSigmaDetectionItems (maps.map Json.object) =
      maps.flatMap fun map => map.map fieldMatcher := by
  induction maps with
  | nil => rfl
  | cons map maps ih =>
    rw [List.map_cons, parseSigmaDetectionItems, parseSigmaDetectionItem, ih, List.flatMap_cons]

/-- The importer's list asks for all maps. -/
theorem evaluate_maps (maps : List (List (String × Json))) (fields : Table String) :
    (evaluateSelection F toLowercase fields
        (parseSigmaDetectionItem (.array (maps.map Json.object)))).isSome =
      maps.all fun map => selects F toLowercase map fields := by
  rw [evaluateSelection_isSome, parseSigmaDetectionItem, parse_maps, List.all_flatMap]
  congr 1
  funext map
  rw [selects_eq, List.all_map]
  rfl

theorem all_eq_any_iff {α : Type*} {l : List α} {p : α → Bool} :
    l.all p = l.any p ↔ l ≠ [] ∧ ∀ a ∈ l, ∀ b ∈ l, p a = true → p b = true := by
  rw [Bool.eq_iff_iff, List.all_eq_true, List.any_eq_true]
  constructor
  · intro h
    refine ⟨?_, fun a ha b hb hp => h.mpr ⟨a, ha, hp⟩ b hb⟩
    rintro rfl
    obtain ⟨a, ha, -⟩ := h.mp fun a ha => absurd ha List.not_mem_nil
    exact absurd ha List.not_mem_nil
  · rintro ⟨hne, hequal⟩
    obtain ⟨a, ha⟩ := List.exists_mem_of_ne_nil l hne
    exact ⟨fun hall => ⟨a, ha, hall a ha⟩, fun ⟨b, hb, hp⟩ c hc => hequal b hb c hc hp⟩

theorem any_congr_mem {α : Type*} {l : List α} {p q : α → Bool} (h : ∀ a ∈ l, p a = q a) :
    l.any p = l.any q := by
  rw [Bool.eq_iff_iff, List.any_eq_true, List.any_eq_true]
  exact exists_congr fun a => and_congr_right fun ha => by rw [h a ha]

theorem all_congr_mem {α : Type*} {l : List α} {p q : α → Bool} (h : ∀ a ∈ l, p a = q a) :
    l.all p = l.all q := by
  rw [Bool.eq_iff_iff, List.all_eq_true, List.all_eq_true]
  exact forall₂_congr fun a ha => by rw [h a ha]

/-- The comparison that the importer gives a suffix. -/
def importedAs : Option String → String
  | none => ""
  | some suffix => if suffix ∈ comparisons then suffix else ""

theorem holds_fieldMatcher (entry : String × Json) (fields : Table String) :
    (fieldMatcher entry).holds F toLowercase fields =
      (fields (splitField entry.1).1).any fun v =>
        (fieldValues entry.2).any (compares toLowercase (importedAs (suffixOf entry.1)) v) := by
  have hmodifier : (splitField entry.1).2 = modifierOf (importedAs (suffixOf entry.1)) := by
    unfold splitField suffixOf
    cases splitOnce '|' entry.1.toList with
    | none => rfl
    | some p =>
      change modifierOf (String.ofList p.2) = modifierOf (importedAs (some (String.ofList p.2)))
      rw [importedAs]
      split_ifs with hknown
      · rfl
      · simp only [comparisons, List.mem_cons, List.not_mem_nil, or_false, not_or] at hknown
        simp [modifierOf, hknown]
  unfold FieldMatcher.holds fieldMatcher
  dsimp only
  rw [hmodifier]
  congr 1
  funext v
  generalize importedAs (suffixOf entry.1) = m
  unfold modifierOf compares
  split_ifs <;> rfl

/-- The field keeps its meaning for every event exactly when its suffix is one that the importer
knows, or means equality anyway. -/
theorem meaning_iff (entry : String × Json) :
    (∀ fields, (fieldMatcher entry).holds F toLowercase fields =
        fieldMeaning toLowercase other entry fields) ↔ SuffixKept toLowercase other entry := by
  simp only [holds_fieldMatcher, fieldMeaning]
  cases hsuffix : suffixOf entry.1 with
  | none => exact iff_of_true (fun fields => rfl) fun suffix h => by cases hsuffix.symm.trans h
  | some suffix =>
    by_cases hknown : suffix ∈ comparisons
    · refine iff_of_true (fun fields => ?_) fun m hm hunknown => ?_
      · rw [importedAs, suffixMeaning, if_pos hknown, if_pos hknown]
      · obtain rfl := Option.some.inj (hsuffix.symm.trans hm)
        exact absurd hknown hunknown
    · have himported : importedAs (some suffix) = "" := if_neg hknown
      rw [himported]
      constructor
      · intro h m hm _ found
        obtain rfl := Option.some.inj (hsuffix.symm.trans hm)
        exact h fun _ => found
      · intro h fields
        exact h suffix hsuffix hknown _

variable (F toLowercase other)

/-- A list of maps is read as their disjunction, each field with its meaning, exactly when there is
a map, all maps select the same events, and no suffix that the importer does not know means anything
but equality. -/
theorem readAsAlternatives_iff (maps : List (List (String × Json))) :
    ReadAsAlternatives F toLowercase other maps ↔
      maps ≠ [] ∧
      (∀ map ∈ maps, ∀ map' ∈ maps, ∀ fields, selects F toLowercase map fields = true →
        selects F toLowercase map' fields = true) ∧
      ∀ map ∈ maps, ∀ entry ∈ map, SuffixKept toLowercase other entry := by
  have hmeaning : (∀ map ∈ maps, ∀ entry ∈ map, ∀ fields,
      (fieldMatcher entry).holds F toLowercase fields =
        fieldMeaning toLowercase other entry fields) ↔
      ∀ map ∈ maps, ∀ entry ∈ map, SuffixKept toLowercase other entry :=
    forall₂_congr fun map _ => forall₂_congr fun entry _ => meaning_iff entry
  have hdisjunction (h : ∀ map ∈ maps, ∀ entry ∈ map, ∀ fields,
      (fieldMatcher entry).holds F toLowercase fields =
        fieldMeaning toLowercase other entry fields) (fields : Table String) :
      (maps.any fun map => map.all fun entry => fieldMeaning toLowercase other entry fields) =
        maps.any fun map => selects F toLowercase map fields := by
    refine any_congr_mem fun map hmap => ?_
    rw [selects_eq]
    exact all_congr_mem fun entry hentry => (h map hmap entry hentry fields).symm
  constructor
  · intro h
    have hall (fields : Table String) :=
      all_eq_any_iff.mp (((evaluate_maps maps fields).symm.trans (h.disjunction fields)).trans
        (hdisjunction h.meaning fields))
    refine ⟨(hall Table.empty).1, fun map hmap map' hmap' fields => ?_, hmeaning.mp h.meaning⟩
    exact (hall fields).2 map hmap map' hmap'
  · rintro ⟨hne, hsame, hkept⟩
    refine ⟨fun fields => ?_, hmeaning.mpr hkept⟩
    rw [evaluate_maps, hdisjunction (hmeaning.mpr hkept)]
    exact all_eq_any_iff.mpr ⟨hne, fun map hmap map' hmap' => hsame map hmap map' hmap' fields⟩

end

/-- A command line of the first map, and nothing of the second. -/
def dumpFields : Table String := Table.empty.insert "CommandLine" "mimikatz -enc hidden"

/-- One map of two matches, and the list does not; two values are contained, and `contains|all` is
read as equality with one of them. -/
theorem alternatives_conjoined :
    ¬ ReadAsAlternatives Unit id (fun _ _ _ => false)
      [[("CommandLine|contains", .string "mimikatz")],
        [("Image|endswith", .string "procdump.exe")]] ∧
    ¬ ReadAsAlternatives Unit id (fun _ _ _ => false)
      [[("CommandLine|contains|all", .array [.string "-enc", .string "hidden"])]] := by
  constructor
  · intro h
    exact absurd (h.disjunction dumpFields) (by decide +kernel)
  · intro h
    exact absurd (h.disjunction dumpFields) (by decide +kernel)

end Wardex.Sigma
