import Wardex.Sigma.Writing

/-! Which documents keep their detection when they are imported. -/

namespace Wardex.Sigma

open Wardex.Lib

instance (t : List Char) : Decidable (IsText t) := inferInstanceAs (Decidable (_ ∧ _ ∧ _))

theorem asStr_scalarValue (t : List Char) :
    (scalarValue t).asStr = if IsText t then some (String.ofList t) else none := by
  unfold scalarValue
  split
  · next h => exact (if_neg fun htext => htext.1 h).symm
  · next htrue =>
    split
    · next h => exact (if_neg fun htext => htext.2.1 h).symm
    · next hfalse =>
      split
      · next n hn => exact (if_neg fun htext => by rw [htext.2.2] at hn; cases hn).symm
      · next hnone => exact (if_pos ⟨htrue, hfalse, hnone⟩).symm

theorem get_ofEntries {entries : List (String × Json)} (hkeys : (entries.map Prod.fst).Nodup)
    {key : String} {value : Json} (h : (key, value) ∈ entries) :
    (Json.object (ofEntries entries)).get key = some value := by
  have hperm := ofEntries_perm hkeys
  exact lookup_eq_some ((hperm.map Prod.fst).nodup_iff.mpr hkeys) (hperm.mem_iff.mpr h)

/-! ### Selections and filters -/

/-- Entries of other names change neither table at a name. -/
theorem foldl_insertItem_of_not_mem {entries : List (String × Json)} {name : String}
    (h : name ∉ entries.map Prod.fst)
    (tables : Table (List FieldMatcher) × Table (List FieldMatcher)) :
    (entries.foldl insertItem tables).1 name = tables.1 name ∧
      (entries.foldl insertItem tables).2 name = tables.2 name := by
  induction entries generalizing tables with
  | nil => exact ⟨rfl, rfl⟩
  | cons e entries ih =>
    have hne : name ≠ e.1 := List.ne_of_not_mem_cons h
    obtain ⟨hselections, hfilters⟩ := ih (List.not_mem_of_not_mem_cons h) (insertItem tables e)
    rw [List.foldl_cons, hselections, hfilters]
    unfold insertItem
    split_ifs
    · exact ⟨rfl, rfl⟩
    · exact ⟨rfl, Function.update_of_ne hne _ _⟩
    · exact ⟨Function.update_of_ne hne _ _, rfl⟩

theorem matchersOf_foldl {entries : List (String × Json)} (hkeys : (entries.map Prod.fst).Nodup)
    {name : String} {value : Json} (h : (name, value) ∈ entries) (hname : name ≠ "condition")
    (tables : Table (List FieldMatcher) × Table (List FieldMatcher)) :
    (if "filter".toList <+: name.toList then (entries.foldl insertItem tables).2 name
      else (entries.foldl insertItem tables).1 name) = some (parseSigmaDetectionItem value) := by
  induction entries generalizing tables with
  | nil => cases h
  | cons e entries ih =>
    obtain ⟨hfresh, hrest⟩ := List.nodup_cons.mp hkeys
    rcases List.mem_cons.mp h with rfl | hmem
    · obtain ⟨hselections, hfilters⟩ :=
        foldl_insertItem_of_not_mem hfresh (insertItem tables (name, value))
      rw [List.foldl_cons, hselections, hfilters, insertItem, if_neg hname]
      split
      · exact Function.update_self name _ _
      · exact Function.update_self name _ _
    · exact ih hrest hmem (insertItem tables e)

theorem matchersOf_parseDetection {entries : List (String × Json)}
    (hkeys : (entries.map Prod.fst).Nodup) {name : String} {value : Json}
    (h : (name, value) ∈ entries) (hname : name ≠ "condition") :
    (parseDetection (.object (ofEntries entries))).matchersOf name =
      some (parseSigmaDetectionItem value) := by
  have hperm := ofEntries_perm hkeys
  exact matchersOf_foldl ((hperm.map Prod.fst).nodup_iff.mpr hkeys) (hperm.mem_iff.mpr h) hname _

theorem mem_matchers {s : Selection} {m : FieldMatcher} :
    m ∈ parseSigmaDetectionItem s.entry.2 ↔ ∃ g ∈ s.fields, fieldMatcher g.entry = m := by
  have hkeys : ((s.fields.map Field.entry).map Prod.fst).Nodup := by
    rw [List.map_map]
    exact s.distinct
  have hperm := ofEntries_perm hkeys
  rw [Selection.entry, parseSigmaDetectionItem, (hperm.map fieldMatcher).mem_iff, List.map_map,
    List.mem_map]
  rfl

namespace Document

variable (d : Document)

theorem detectionEntries_keys : (d.detectionEntries.map Prod.fst).Nodup := by
  have hperm : (d.detectionEntries.map Prod.fst).Perm
      ("condition" :: (d.selectionsBefore ++ d.selectionsAfter).map fun s => s.key.name) := by
    rw [detectionEntries, List.map_append, List.map_cons, List.map_map, List.map_map,
      List.map_append]
    exact List.perm_middle
  have hfresh : "condition" ∉
      (d.selectionsBefore ++ d.selectionsAfter).map fun s => s.key.name := by
    intro hmem
    obtain ⟨s, -, hs⟩ := List.mem_map.mp hmem
    exact s.notCondition hs
  exact hperm.nodup_iff.mpr (List.nodup_cons.mpr ⟨hfresh, d.selections⟩)

theorem entry_mem_detectionEntries {s : Selection} (hs : s ∈ d.selected) :
    s.entry ∈ d.detectionEntries := by
  rcases List.mem_append.mp hs with hs | hs
  · exact List.mem_append_left _ (List.mem_map_of_mem hs)
  · exact List.mem_append_right _ (List.mem_cons_of_mem _ (List.mem_map_of_mem hs))

/-! ### The detection without block lists -/

theorem condition_iff :
    (parseDetection (.object (ofEntries d.detectionEntries))).condition =
        String.ofList d.condition.text ↔
      d.condition.Unquotable ∧ IsText d.condition.text := by
  have hmem : ("condition", parseYamlScalar d.condition.render) ∈ d.detectionEntries :=
    List.mem_append_right _ List.mem_cons_self
  rw [parseDetection, get_ofEntries d.detectionEntries_keys hmem, Option.bind_some, parseYamlScalar,
    asStr_scalarValue]
  constructor
  · intro h
    split at h
    · next htext =>
      have hstrip : stripQuotes d.condition.render = d.condition.text := String.ofList_injective h
      exact ⟨d.condition.stripQuotes_render_iff.mp hstrip, hstrip ▸ htext⟩
    · next hnot =>
      -- the default takes the place of a condition that is no text, and is itself a text
      have htext : d.condition.text = "selection".toList := by
        rw [← String.toList_ofList (l := d.condition.text), ← h]
        rfl
      have hunquotable : d.condition.Unquotable := d.condition.unquotable_of_not_mem fun q hq => by
        rw [htext]
        revert q
        simp
      rw [d.condition.stripQuotes_render_iff.mpr hunquotable, htext] at hnot
      exact absurd (by decide) hnot
  · rintro ⟨hunquotable, htext⟩
    rw [d.condition.stripQuotes_render_iff.mpr hunquotable, if_pos htext, Option.getD_some]

theorem selection_iff {s : Selection} (hs : s ∈ d.selected) :
    (∃ matchers, (parseDetection (.object (ofEntries d.detectionEntries))).matchersOf s.key.name =
        some matchers ∧ ∀ f ∈ s.fields, ∃ m ∈ matchers,
          (m.field, m.modifier) = splitField f.key.name ∧ m.values = f.value.texts) ↔
      ∀ f ∈ s.fields, ∃ g ∈ s.fields, splitField g.key.name = splitField f.key.name ∧
        fieldValues (parseYamlValue g.value.written) = f.value.texts := by
  rw [matchersOf_parseDetection d.detectionEntries_keys (d.entry_mem_detectionEntries hs)
    s.notCondition]
  constructor
  · rintro ⟨matchers, hmatchers, hfields⟩ f hf
    obtain rfl := Option.some.inj hmatchers
    obtain ⟨m, hm, hkey, hvalues⟩ := hfields f hf
    obtain ⟨g, hg, rfl⟩ := mem_matchers.mp hm
    exact ⟨g, hg, hkey, hvalues⟩
  · intro h
    refine ⟨_, rfl, fun f hf => ?_⟩
    obtain ⟨g, hg, hkey, hvalues⟩ := h f hf
    exact ⟨fieldMatcher g.entry, mem_matchers.mpr ⟨g, hg, rfl⟩, hkey, hvalues⟩

theorem field_iff {s : Selection} {f : Field} (hf : f ∈ s.fields) (hblock : ¬f.value.IsBlock) :
    (∃ g ∈ s.fields, splitField g.key.name = splitField f.key.name ∧
        fieldValues (parseYamlValue g.value.written) = f.value.texts) ↔
      f.value.Faithful ∨ ∃ g ∈ s.fields, g ≠ f ∧ splitField g.key.name = splitField f.key.name ∧
        fieldValues (parseYamlValue g.value.written) = f.value.texts := by
  constructor
  · rintro ⟨g, hg, hkey, hvalues⟩
    by_cases hgf : g = f
    · subst hgf
      exact Or.inl ((FieldValue.faithful_iff hblock).mp hvalues)
    · exact Or.inr ⟨g, hg, hgf, hkey, hvalues⟩
  · rintro (hfaithful | ⟨g, hg, -, hkey, hvalues⟩)
    · exact ⟨f, hf, rfl, (FieldValue.faithful_iff hblock).mpr hfaithful⟩
    · exact ⟨g, hg, hkey, hvalues⟩

theorem keptBy_iff (h : ∀ s ∈ d.selected, NoBlock s) :
    d.KeptBy (parseDetection (.object (ofEntries d.detectionEntries))) ↔
      (d.condition.Unquotable ∧ IsText d.condition.text) ∧
        ∀ s ∈ d.selected, ∀ f ∈ s.fields, f.value.Faithful ∨
          ∃ g ∈ s.fields, g ≠ f ∧ splitField g.key.name = splitField f.key.name ∧
            fieldValues (parseYamlValue g.value.written) = f.value.texts := by
  constructor
  · rintro ⟨hcondition, hselections⟩
    refine ⟨d.condition_iff.mp hcondition, fun s hs f hf => ?_⟩
    exact (field_iff hf (h s hs f hf)).mp ((d.selection_iff hs).mp (hselections s hs) f hf)
  · rintro ⟨hcondition, hfields⟩
    refine ⟨d.condition_iff.mpr hcondition, fun s hs => (d.selection_iff hs).mpr fun f hf => ?_⟩
    exact (field_iff hf (h s hs f hf)).mpr (hfields s hs f hf)

/-- A detection that is a list has neither selections nor filters. -/
theorem not_keptBy_array {s : Selection} (hs : s ∈ d.selected) (items : List Json) :
    ¬d.KeptBy (parseDetection (.array items)) := by
  intro h
  obtain ⟨matchers, hmatchers, -⟩ := h.selections s hs
  have hnone : (parseDetection (.array items)).matchersOf s.key.name = none := by
    unfold Detection.matchersOf
    split
    · rfl
    · rfl
  rw [hnone] at hmatchers
  cases hmatchers

/-! ### Whole rules -/

theorem entries_keys (detection : Json) : ((d.entries detection).map Prod.fst).Nodup := by
  have hperm : ((d.entries detection).map Prod.fst).Perm
      ("detection" :: (d.before ++ d.after).map fun e => e.key.name) := by
    rw [entries, List.map_append, List.map_cons, List.map_map, List.map_map, List.map_append]
    exact List.perm_middle
  exact hperm.nodup_iff.mpr d.distinct

theorem entry_mem_entries {e : Entry} (he : e ∈ d.before ++ d.after) (detection : Json) :
    (e.key.name, e.read) ∈ d.entries detection := by
  rcases List.mem_append.mp he with he | he
  · exact List.mem_append_left _ (List.mem_map.mpr ⟨e, he, rfl⟩)
  · exact List.mem_append_right _ (List.mem_cons_of_mem _ (List.mem_map.mpr ⟨e, he, rfl⟩))

/-- A rule is read exactly if the title is a text, and its detection is read on its own. -/
theorem parseSigmahqYaml_iff (toUppercase : String → String) {text : String}
    {detection : Json} (h : parseYamlToJson text = .ok (.object (ofEntries (d.entries detection))))
    (P : Detection → Prop) :
    (∃ rule, parseSigmahqYaml toUppercase text = .ok rule ∧ P rule.detection) ↔
      IsText (stripQuotes d.title.render) ∧ P (parseDetection detection) := by
  obtain ⟨e, he, htitle, hvalue⟩ := d.titled
  obtain ⟨l, hl, hlogsource⟩ := d.logsource
  have hread := get_ofEntries (d.entries_keys detection) (d.entry_mem_entries he detection)
  have hlogsource' := get_ofEntries (d.entries_keys detection) (d.entry_mem_entries hl detection)
  have hdetection := get_ofEntries (d.entries_keys detection)
    (List.mem_append_right _ List.mem_cons_self)
  rw [htitle, Entry.read, hvalue] at hread
  rw [hlogsource] at hlogsource'
  unfold parseSigmahqYaml
  simp only [h, hread, hlogsource', hdetection, bind, Except.bind, Option.bind_some, Option.elim,
    parseYamlScalar, asStr_scalarValue]
  by_cases htext : IsText (stripQuotes d.title.render)
  · simp only [if_pos htext]
    constructor
    · rintro ⟨rule, hrule, hkept⟩
      obtain rfl := Except.ok.inj hrule
      exact ⟨htext, hkept⟩
    · rintro ⟨-, hkept⟩
      exact ⟨_, rfl, hkept⟩
  · simp only [if_neg htext]
    constructor
    · rintro ⟨rule, hrule, -⟩
      cases hrule
    · rintro ⟨htext', -⟩
      exact absurd htext' htext

theorem not_kept_of_block (toUppercase : String → String) {text : String}
    (h : significant text.toList = d.lines) {s : Selection} (hs : s ∈ d.selected) {f : Field}
    (hf : f ∈ s.fields) (hblock : f.value.IsBlock) :
    ¬∃ rule, parseSigmahqYaml toUppercase text = .ok rule ∧ d.KeptBy rule.detection := by
  obtain ⟨items, hitems⟩ := d.flushed_block d.atDetection hs hf hblock
  rw [d.parseSigmahqYaml_iff toUppercase (d.parseYamlToJson_eq h hitems) d.KeptBy]
  exact fun hkept => d.not_keptBy_array hs items hkept.2

end Document

/-- The detection of a document is imported as it is written exactly if no block list stands in a
selection and every scalar is one that the reader gives back. -/
theorem detection_kept_iff (toUppercase : String → String) (d : Document) {text : String}
    (h : significant text.toList = d.lines) :
    (∃ rule, parseSigmahqYaml toUppercase text = .ok rule ∧ d.KeptBy rule.detection) ↔
      d.Faithful := by
  by_cases hblock : ∃ s ∈ d.selected, ∃ f ∈ s.fields, f.value.IsBlock
  · obtain ⟨s, hs, f, hf, hisBlock⟩ := hblock
    constructor
    · intro hkept
      exact absurd hkept (d.not_kept_of_block toUppercase h hs hf hisBlock)
    · intro hd
      exact absurd hisBlock (hd.noBlock s hs f hf)
  · have hnone : ∀ s ∈ d.selected, NoBlock s := fun s hs f hf hisBlock =>
      hblock ⟨s, hs, f, hf, hisBlock⟩
    rw [d.parseSigmahqYaml_iff toUppercase
      (d.parseYamlToJson_eq h (d.flushed_body _ hnone)) d.KeptBy,
      d.keptBy_iff hnone]
    constructor
    · rintro ⟨htitle, hcondition, hfields⟩
      exact ⟨hnone, htitle, hcondition, hfields⟩
    · intro hd
      exact ⟨hd.title, hd.condition, hd.fields⟩

/-! ### Two rules for one tool -/

def titleKey : Key := ⟨"title".toList, by decide, by decide, by decide, by decide⟩

def logsourceKey : Key := ⟨"logsource".toList, by decide, by decide, by decide, by decide⟩

def productKey : Key := ⟨"product".toList, by decide, by decide, by decide, by decide⟩

def selectionKey : Key := ⟨"selection".toList, by decide, by decide, by decide, by decide⟩

def commandKey : Key := ⟨"CommandLine|contains".toList, by decide, by decide, by decide, by decide⟩

def toolTitle : Scalar := ⟨.plain, "Certutil download".toList, by decide, fun _ => by decide⟩

def toolProduct : Scalar := ⟨.plain, "windows".toList, by decide, fun _ => by decide⟩

def toolCondition : Scalar := ⟨.plain, "selection".toList, by decide, fun _ => by decide⟩

def urlcache : Scalar := ⟨.single, "urlcache".toList, by decide, fun h => by cases h⟩

def verifyctl : Scalar := ⟨.single, "verifyctl".toList, by decide, fun h => by cases h⟩

/-- A rule with one selection of one field. -/
def toolDocument (value : FieldValue) : Document where
  before := [⟨titleKey, .scalar toolTitle⟩, ⟨logsourceKey, .map [(productKey, toolProduct)]⟩]
  title := toolTitle
  selectionsBefore := [⟨selectionKey, [⟨commandKey, value⟩], by decide, List.nodup_singleton _⟩]
  condition := toolCondition
  selectionsAfter := []
  after := []
  titled := ⟨_, List.mem_cons_self, rfl, rfl⟩
  logsource := ⟨_, List.mem_cons_of_mem _ List.mem_cons_self, rfl⟩
  distinct := by decide
  selections := List.nodup_singleton _

def inlineValue : FieldValue :=
  .inline [⟨urlcache, fun h => by cases h⟩, ⟨verifyctl, fun h => by cases h⟩]

def inlineText : String :=
  "title: Certutil download\nlogsource:\n    product: windows\ndetection:\n" ++
  "    selection:\n        CommandLine|contains: ['urlcache', 'verifyctl']\n" ++
  "    condition: selection\n"

theorem detection_kept_inline :
    significant inlineText.toList = (toolDocument inlineValue).lines ∧
      ∃ rule, parseSigmahqYaml id inlineText = .ok rule ∧
        (toolDocument inlineValue).KeptBy rule.detection := by
  have htext : inlineText.toList = (toolDocument inlineValue).text.toList := by
    unfold inlineText
    rw [Document.text, writeLines, String.toList_ofList]
    simp only [String.toList_append, String.reduceToList]
    decide +kernel
  have hlines : significant inlineText.toList = (toolDocument inlineValue).lines := by
    rw [htext]
    exact (toolDocument inlineValue).significant_text
  have hfaithful : inlineValue.Faithful := by
    refine ⟨List.cons_ne_nil _ _, fun i hi => ?_⟩
    have htext : ∀ t ∈ ["urlcache".toList, "verifyctl".toList], ('\'' ∉ t ∧ Bare (· == '"') t) ∧
        parseSigned 64 t = none ∧ ',' ∉ t ∧ t ≠ "true".toList ∧ t ≠ "false".toList := by
      decide
    have hmem :
        i.scalar.style = .single ∧ i.scalar.text ∈ ["urlcache".toList, "verifyctl".toList] := by
      revert i
      decide
    obtain ⟨hquotes, hnumber, hrest⟩ := htext _ hmem.2
    refine ⟨?_, fun n hn => ?_, hrest⟩
    · rw [Scalar.Unquotable, hmem.1]
      exact hquotes
    · rw [hnumber] at hn
      cases hn
  refine ⟨hlines, (detection_kept_iff id _ hlines).mpr ⟨?_, by decide, ?_, ?_⟩⟩
  · intro s hs f hf
    obtain rfl := List.mem_singleton.mp hs
    obtain rfl := List.mem_singleton.mp hf
    exact id
  · exact ⟨by show _ ∧ _; decide, by decide⟩
  · intro s hs f hf
    obtain rfl := List.mem_singleton.mp hs
    obtain rfl := List.mem_singleton.mp hf
    exact Or.inl hfaithful

/-- The same values in a block list. -/
def blockValue : FieldValue := .block urlcache [verifyctl]

def blockText : String :=
  "title: Certutil download\nlogsource:\n    product: windows\ndetection:\n" ++
  "    selection:\n        CommandLine|contains:\n            - 'urlcache'\n" ++
  "            - 'verifyctl'\n    condition: selection\n"

/-- The rule is imported without its only selection. -/
theorem block_list_lost :
    significant blockText.toList = (toolDocument blockValue).lines ∧
      (∃ rule, parseSigmahqYaml id blockText = .ok rule ∧
        rule.detection.selections "selection" = none) ∧
      ¬∃ rule, parseSigmahqYaml id blockText = .ok rule ∧
        (toolDocument blockValue).KeptBy rule.detection := by
  have htext : blockText.toList = (toolDocument blockValue).text.toList := by
    unfold blockText
    rw [Document.text, writeLines, String.toList_ofList]
    simp only [String.toList_append, String.reduceToList]
    decide +kernel
  have hlines : significant blockText.toList = (toolDocument blockValue).lines := by
    rw [htext]
    exact (toolDocument blockValue).significant_text
  obtain ⟨items, hitems⟩ := (toolDocument blockValue).flushed_block
    (toolDocument blockValue).atDetection List.mem_cons_self List.mem_cons_self trivial
  have hread := (toolDocument blockValue).parseYamlToJson_eq hlines hitems
  refine ⟨hlines, ?_, ?_⟩
  · exact ((toolDocument blockValue).parseSigmahqYaml_iff id hread
      fun d => d.selections "selection" = none).mpr ⟨by decide, rfl⟩
  · exact (toolDocument blockValue).not_kept_of_block id hlines List.mem_cons_self
      List.mem_cons_self trivial

end Wardex.Sigma
