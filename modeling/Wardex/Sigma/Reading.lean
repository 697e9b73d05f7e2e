import Wardex.Sigma.Quoting

/-! The value that the reader builds from the lines of a document. -/

namespace Wardex.Sigma

open Wardex.Lib

/-! ### One line -/

namespace Key

variable (k : Key)

theorem head?_line (indent : Nat) (written : List Char) :
    (k.line indent written).2.head? = k.text.head? := by
  cases htext : k.text with
  | nil => exact absurd htext k.plain.1.1
  | cons c rest => rw [line, htext, List.cons_append, List.head?_cons, List.head?_cons]

theorem colon_mem_line (indent : Nat) (written : List Char) : ':' ∈ (k.line indent written).2 :=
  List.mem_append_right _ List.mem_cons_self

theorem trim_text : trim k.text = k.text := trimWith_eq_self k.plain.1.2

/-- The key and the rest of its line. -/
theorem splitOnce_line (indent : Nat) {written : List Char} (h : Bare isWhiteSpace written) :
    ∃ rest, splitOnce ':' (k.line indent written).2 = some (k.text, rest) ∧
      trim rest = written := by
  refine ⟨_, splitOnce_append k.noColon _, ?_⟩
  split
  · next hnil => exact hnil.symm
  · exact (trimWith_cons rfl).trans (trimWith_eq_self h)

end Key

namespace YamlState

/-- What the root is once the current key is flushed. -/
def flushed (st : YamlState) : List (String × Json) := st.flushCurrent.root

/-- A map is being read under the current key. -/
structure Open (st : YamlState) (root : List (String × Json)) (key : String)
    (fields : List (String × Json)) : Prop where
  root : st.root = root
  currentKey : st.currentKey = some key
  currentList : st.currentList = none
  currentMap : st.currentMap = some fields

/-- List items have come under the current key, which will be a list whatever follows. -/
structure Lost (st : YamlState) (root : List (String × Json)) (key : String) : Prop where
  root : st.root = root
  currentKey : st.currentKey = some key
  currentList : st.currentList ≠ none

variable {st : YamlState} {root fields : List (String × Json)} {key : String}

theorem Open.flushed_eq (h : Open st root key fields) :
    st.flushed = insertKey root key (.object fields) := by
  rw [flushed, flushCurrent, pending, h.root, h.currentKey, h.currentList, h.currentMap]

theorem Lost.flushed_eq (h : Lost st root key) :
    ∃ items, st.flushed = insertKey root key (.array items) := by
  cases hitems : st.currentList with
  | none => exact absurd hitems h.currentList
  | some items =>
    refine ⟨items, ?_⟩
    rw [flushed, flushCurrent, pending, h.root, h.currentKey, hitems]

theorem line_topLevel (st : YamlState) (k : Key) (written : List Char) :
    st.line (k.line 0 written) = st.topLevel (k.line 0 written).2 :=
  if_pos ⟨rfl, k.colon_mem_line 0 written, by rw [k.head?_line]; exact k.noDash⟩

theorem line_mapEntry (st : YamlState) (k : Key) {indent : Nat} (h : 0 < indent)
    (written : List Char) :
    st.line (k.line indent written) = st.mapEntry indent (k.line indent written).2 := by
  have hdash : (k.line indent written).2.head? ≠ some '-' := by
    rw [k.head?_line]
    exact k.noDash
  refine (if_neg fun htop => ?_).trans ((if_neg fun hlist => hdash hlist.2).trans (if_pos ?_))
  · exact h.ne' htop.1
  · exact ⟨h, k.colon_mem_line indent written, hdash⟩

theorem line_item (st : YamlState) {indent : Nat} (h : 0 < indent) (s : Scalar) :
    st.line (itemLine indent s) = st.listItem (itemLine indent s).2 :=
  (if_neg fun htop => h.ne' htop.1).trans (if_pos ⟨h, rfl⟩)

/-- A key of its own line opens a map. -/
theorem open_line (st : YamlState) (k : Key) :
    Open (st.line (k.line 0 [])) st.flushed k.name [] := by
  have hnil : Bare isWhiteSpace [] := by decide
  obtain ⟨rest, hsplit, htrim⟩ := k.splitOnce_line 0 hnil
  rw [line_topLevel, topLevel, hsplit]
  dsimp only
  rw [htrim, k.trim_text, if_pos rfl]
  exact ⟨rfl, rfl, rfl, rfl⟩

theorem flushed_line (st : YamlState) (k : Key) (s : Scalar) :
    (st.line (k.line 0 s.render)).flushed =
      insertKey st.flushed k.name (parseYamlScalar s.render) := by
  obtain ⟨rest, hsplit, htrim⟩ := k.splitOnce_line 0 s.bare_render
  rw [line_topLevel, topLevel, hsplit]
  dsimp only
  rw [htrim, k.trim_text, if_neg s.render_ne_nil]
  rfl

/-! ### Lines below a key -/

theorem Open.mapLine (h : Open st root key fields) (k : Key) (s : Scalar) :
    Open (st.line (k.line 4 s.render)) root key
      (insertKey fields k.name (parseYamlValue s.render)) := by
  obtain ⟨rest, hsplit, htrim⟩ := k.splitOnce_line 4 s.bare_render
  rw [line_mapEntry st k (by decide), mapEntry, hsplit]
  dsimp only
  rw [htrim, k.trim_text, if_neg fun hdeep => absurd hdeep.1 (by decide), if_pos (by decide),
    if_neg s.render_ne_nil, h.currentMap]
  exact ⟨h.root, h.currentKey, h.currentList, rfl⟩

/-- A selection is being read. -/
structure OpenSub (st : YamlState) (root : List (String × Json)) (key : String)
    (fields : List (String × Json)) (sub : String) : Prop extends Open st root key fields where
  inSubMap : st.inSubMap = true
  subKey : st.subKey = some sub

theorem Open.subLine (h : Open st root key fields) (k : Key) :
    OpenSub (st.line (k.line 4 [])) root key (insertKey fields k.name (.object [])) k.name := by
  have hnil : Bare isWhiteSpace [] := by decide
  obtain ⟨rest, hsplit, htrim⟩ := k.splitOnce_line 4 hnil
  rw [line_mapEntry st k (by decide), mapEntry, hsplit]
  dsimp only
  rw [htrim, k.trim_text, if_neg fun hdeep => absurd hdeep.1 (by decide), if_pos (by decide),
    if_pos rfl, h.currentMap]
  exact ⟨⟨h.root, h.currentKey, h.currentList, rfl⟩, rfl, rfl⟩

theorem OpenSub.fieldLine {sub : String} (h : OpenSub st root key fields sub) (k : Key)
    {written : List Char} (hwritten : Bare isWhiteSpace written) :
    OpenSub (st.line (k.line 8 written)) root key
      (insertSub fields sub k.name (parseYamlValue written)) sub := by
  obtain ⟨rest, hsplit, htrim⟩ := k.splitOnce_line 8 hwritten
  rw [line_mapEntry st k (by decide), mapEntry, hsplit]
  dsimp only
  rw [htrim, k.trim_text, if_pos ⟨by decide, h.inSubMap⟩, h.currentMap, h.subKey]
  exact ⟨⟨h.root, h.currentKey, h.currentList, rfl⟩, h.inSubMap, rfl⟩

theorem insertSub_insertKey (fields inner : List (String × Json)) (sub k : String) (v : Json) :
    insertSub (insertKey fields sub (.object inner)) sub k v =
      insertKey fields sub (.object (insertKey inner k v)) := by
  rw [insertSub, lookup_insertKey_self, Option.getD_some]
  exact insertKey_insertKey String.lt_irrefl fields sub _ _

/-- Indented lines leave the root and the current key as they are, and a list stays one. -/
theorem line_frame (st : YamlState) {l : Nat × List Char} (h : 0 < l.1) :
    (st.line l).root = st.root ∧ (st.line l).currentKey = st.currentKey ∧
      (st.currentList ≠ none → (st.line l).currentList ≠ none) := by
  unfold line
  dsimp only
  split
  · next htop => exact absurd htop.1 h.ne'
  · split
    · unfold listItem
      split
      · exact ⟨rfl, rfl, fun _ => Option.some_ne_none _⟩
      · exact ⟨rfl, rfl, fun _ => Option.some_ne_none _⟩
    · split
      · unfold mapEntry
        split
        · exact ⟨rfl, rfl, id⟩
        · dsimp only
          split_ifs
          · split
            · exact ⟨rfl, rfl, id⟩
            · exact ⟨rfl, rfl, id⟩
          · exact ⟨rfl, rfl, id⟩
          · exact ⟨rfl, rfl, id⟩
          · exact ⟨rfl, rfl, id⟩
      · exact ⟨rfl, rfl, id⟩

theorem Lost.line (h : Lost st root key) {l : Nat × List Char} (hl : 0 < l.1) :
    Lost (st.line l) root key := by
  obtain ⟨hroot, hkey, hlist⟩ := st.line_frame hl
  exact ⟨hroot.trans h.root, hkey.trans h.currentKey, hlist h.currentList⟩

theorem Lost.foldl (h : Lost st root key) {ls : List (Nat × List Char)} (hls : ∀ l ∈ ls, 0 < l.1) :
    Lost (ls.foldl YamlState.line st) root key := by
  induction ls generalizing st with
  | nil => exact h
  | cons l ls ih =>
    exact ih (h.line (hls l List.mem_cons_self)) fun l' hl' => hls l' (List.mem_cons_of_mem l hl')

/-- One list item among the lines below a key is enough. -/
theorem lost_of_item (hroot : st.root = root) (hkey : st.currentKey = some key)
    {ls : List (Nat × List Char)} (hls : ∀ l ∈ ls, 0 < l.1) {n : Nat} {s : Scalar}
    (hmem : itemLine n s ∈ ls) : Lost (ls.foldl YamlState.line st) root key := by
  induction ls generalizing st with
  | nil => cases hmem
  | cons l ls ih =>
    have hpos : 0 < l.1 := hls l List.mem_cons_self
    have hrest : ∀ l' ∈ ls, 0 < l'.1 := fun l' hl' => hls l' (List.mem_cons_of_mem l hl')
    obtain ⟨hroot', hkey', -⟩ := st.line_frame hpos
    rcases List.mem_cons.mp hmem with rfl | hmem
    · have hlist : (st.line (itemLine n s)).currentList ≠ none := by
        rw [line_item st (show 0 < n from hpos), listItem]
        split
        · exact Option.some_ne_none _
        · exact Option.some_ne_none _
      exact Lost.foldl ⟨hroot'.trans hroot, hkey'.trans hkey, hlist⟩ hrest
    · exact ih (hroot'.trans hroot) (hkey'.trans hkey) hrest hmem

end YamlState

/-! ### Entries -/

/-- What the reader makes of an entry; a key with nothing below it is a map. -/
def Entry.read (e : Entry) : Json :=
  match e.value with
  | .scalar s => parseYamlScalar s.render
  | .list [] => .object []
  | .list (first :: rest) => .array ((first :: rest).map fun s => parseYamlScalar s.render)
  | .map fields => .object (ofEntries (fields.map fun p => (p.1.name, parseYamlValue p.2.render)))

namespace YamlState

variable {root fields : List (String × Json)} {key : String}

theorem trim_itemLine (n : Nat) (s : Scalar) :
    trim ((itemLine n s).2.dropWhile (· == '-')) = s.render :=
  (trimWith_cons rfl).trans s.trim_render

theorem listItem_first {st : YamlState} (h : st.currentList = none) (n : Nat) (s : Scalar) :
    st.listItem (itemLine n s).2 =
      { st with currentList := some [parseYamlScalar s.render], currentMap := none } := by
  unfold listItem
  simp only [h, trim_itemLine]

theorem listItem_next {st : YamlState} {items : List Json} (h : st.currentList = some items)
    (n : Nat) (s : Scalar) :
    st.listItem (itemLine n s).2 =
      { st with currentList := some (items ++ [parseYamlScalar s.render]) } := by
  unfold listItem
  simp only [h, trim_itemLine]

theorem flushed_items {st : YamlState} {read : List Json} (hroot : st.root = root)
    (hkey : st.currentKey = some key) (hlist : st.currentList = some read) (items : List Scalar) :
    ((items.map (itemLine 4)).foldl line st).flushed =
      insertKey root key (.array (read ++ items.map fun s => parseYamlScalar s.render)) := by
  induction items generalizing st read with
  | nil => rw [List.map_nil, List.foldl_nil, flushed, flushCurrent, pending, hroot, hkey, hlist,
      List.map_nil, List.append_nil]
  | cons s items ih =>
    rw [List.map_cons, List.foldl_cons, line_item st (by decide), listItem_next hlist,
      List.map_cons, List.append_cons read _ (items.map fun s => parseYamlScalar s.render)]
    exact ih hroot hkey rfl

theorem Open.foldl_map {st : YamlState} (h : Open st root key fields)
    (entries : List (Key × Scalar)) :
    Open ((entries.map fun p => p.1.line 4 p.2.render).foldl line st) root key
      ((entries.map fun p => (p.1.name, parseYamlValue p.2.render)).foldl
        (fun m e => insertKey m e.1 e.2) fields) := by
  induction entries generalizing st fields with
  | nil => exact h
  | cons p entries ih => exact ih (h.mapLine p.1 p.2)

theorem flushed_entry (st : YamlState) (e : Entry) :
    (e.lines.foldl line st).flushed = insertKey st.flushed e.key.name e.read := by
  obtain ⟨k, value⟩ := e
  have hopen := st.open_line k
  cases value with
  | scalar s => exact flushed_line st k s
  | list items =>
    cases items with
    | nil => exact hopen.flushed_eq
    | cons first rest =>
      obtain ⟨hroot, hkey, -⟩ := (st.line (k.line 0 [])).line_frame (l := itemLine 4 first)
        (by show 0 < 4; decide)
      have hlist : ((st.line (k.line 0 [])).line (itemLine 4 first)).currentList =
          some [parseYamlScalar first.render] := by
        rw [line_item _ (by decide), listItem_first hopen.currentList]
      exact flushed_items (hroot.trans hopen.root) (hkey.trans hopen.currentKey) hlist rest
  | map entries => exact (hopen.foldl_map entries).flushed_eq

theorem flushed_entries (st : YamlState) (entries : List Entry) :
    ((entries.flatMap Entry.lines).foldl line st).flushed =
      (entries.map fun e => (e.key.name, e.read)).foldl (fun m e => insertKey m e.1 e.2)
        st.flushed := by
  induction entries generalizing st with
  | nil => rfl
  | cons e entries ih =>
    rw [List.flatMap_cons, List.foldl_append, ih, flushed_entry, List.map_cons, List.foldl_cons]

end YamlState

/-! ### Detections -/

theorem FieldValue.bare_written (v : FieldValue) : Bare isWhiteSpace v.written := by
  cases v with
  | scalar s => exact s.bare_render
  | inline items => exact bare_wrap rfl rfl _
  | block first rest => exact Bare.of_forall fun c hc => absurd hc List.not_mem_nil

def Field.entry (f : Field) : String × Json := (f.key.name, parseYamlValue f.value.written)

/-- What the reader makes of a selection that has no block list. -/
def Selection.entry (s : Selection) : String × Json :=
  (s.key.name, .object (ofEntries (s.fields.map Field.entry)))

def NoBlock (s : Selection) : Prop := ∀ f ∈ s.fields, ¬f.value.IsBlock

namespace YamlState

variable {root fields : List (String × Json)} {key : String}

theorem OpenSub.foldl_fields {st : YamlState} {inner : List (String × Json)} {sub : String}
    (h : OpenSub st root key (insertKey fields sub (.object inner)) sub) {fs : List Field}
    (hblock : ∀ f ∈ fs, ¬f.value.IsBlock) :
    OpenSub ((fs.flatMap Field.lines).foldl line st) root key
      (insertKey fields sub (.object ((fs.map Field.entry).foldl
        (fun m e => insertKey m e.1 e.2) inner))) sub := by
  induction fs generalizing st inner with
  | nil => exact h
  | cons f fs ih =>
    have hlines : f.lines = [f.key.line 8 f.value.written] := by
      have hf := hblock f List.mem_cons_self
      obtain ⟨k, value⟩ := f
      cases value with
      | scalar s => rfl
      | inline items => rfl
      | block first rest => exact absurd trivial hf
    have hstep := h.fieldLine f.key f.value.bare_written
    rw [insertSub_insertKey] at hstep
    rw [List.flatMap_cons, hlines, List.singleton_append]
    exact ih hstep fun g hg => hblock g (List.mem_cons_of_mem f hg)

theorem Open.foldl_selection {st : YamlState} (h : Open st root key fields) {s : Selection}
    (hblock : NoBlock s) :
    Open (s.lines.foldl line st) root key (insertKey fields s.entry.1 s.entry.2) :=
  ((h.subLine s.key).foldl_fields hblock).toOpen

theorem Open.foldl_selections {st : YamlState} (h : Open st root key fields)
    {selections : List Selection} (hblock : ∀ s ∈ selections, NoBlock s) :
    Open ((selections.flatMap Selection.lines).foldl line st) root key
      ((selections.map Selection.entry).foldl (fun m e => insertKey m e.1 e.2) fields) := by
  induction selections generalizing st fields with
  | nil => exact h
  | cons s selections ih =>
    rw [List.flatMap_cons, List.foldl_append]
    exact ih (h.foldl_selection (hblock s List.mem_cons_self)) fun t ht =>
      hblock t (List.mem_cons_of_mem s ht)

end YamlState

/-! ### Documents -/

def detectionKey : Key where
  text := "detection".toList
  oneLine := by decide
  plain := by decide
  noColon := by decide
  noDash := by decide

def conditionKey : Key where
  text := "condition".toList
  oneLine := by decide
  plain := by decide
  noColon := by decide
  noDash := by decide

namespace Document

variable (d : Document)

/-- The detection as it is read when no selection has a block list. -/
def detectionEntries : List (String × Json) :=
  d.selectionsBefore.map Selection.entry ++
    ("condition", parseYamlScalar d.condition.render) :: d.selectionsAfter.map Selection.entry

def entries (detection : Json) : List (String × Json) :=
  d.before.map (fun e => (e.key.name, e.read)) ++
    ("detection", detection) :: d.after.map fun e => (e.key.name, e.read)

theorem line_condition : conditionKey.line 4 d.condition.render = d.conditionLine := by
  rw [Key.line, if_neg d.condition.render_ne_nil]
  rfl

theorem flushed_body (st : YamlState) (h : ∀ s ∈ d.selected, NoBlock s) :
    (d.detectionLines.foldl YamlState.line st).flushed =
      insertKey st.flushed "detection" (.object (ofEntries d.detectionEntries)) := by
  have hopen : YamlState.Open (st.line (0, "detection:".toList)) st.flushed "detection" [] :=
    st.open_line detectionKey
  have hbefore := hopen.foldl_selections fun s hs => h s (List.mem_append_left _ hs)
  have hcondition := hbefore.mapLine conditionKey d.condition
  rw [d.line_condition, d.condition.parseYamlValue_render] at hcondition
  have hafter := hcondition.foldl_selections fun s hs => h s (List.mem_append_right _ hs)
  rw [detectionLines, body, List.foldl_cons, List.foldl_append, List.foldl_cons, hafter.flushed_eq,
    ofEntries, detectionEntries, List.foldl_append, List.foldl_cons]
  rfl

theorem indented_selection (s : Selection) : ∀ l ∈ s.lines, 0 < l.1 := by
  intro l hl
  rcases List.mem_cons.mp hl with rfl | hl
  · show 0 < 4
    decide
  · obtain ⟨f, -, hl⟩ := List.mem_flatMap.mp hl
    rcases List.mem_cons.mp hl with rfl | hl
    · show 0 < 8
      decide
    · obtain ⟨item, -, rfl⟩ := List.mem_map.mp hl
      show 0 < 12
      decide

theorem indented_body : ∀ l ∈ d.body, 0 < l.1 := by
  intro l hl
  rcases List.mem_append.mp hl with hl | hl
  · obtain ⟨s, -, hl⟩ := List.mem_flatMap.mp hl
    exact indented_selection s l hl
  · rcases List.mem_cons.mp hl with rfl | hl
    · show 0 < 4
      decide
    · obtain ⟨s, -, hl⟩ := List.mem_flatMap.mp hl
      exact indented_selection s l hl

theorem lines_subset_body {s : Selection} (hs : s ∈ d.selected) : s.lines ⊆ d.body := by
  intro l hl
  rcases List.mem_append.mp hs with hs | hs
  · exact List.mem_append_left _ (List.mem_flatMap.mpr ⟨s, hs, hl⟩)
  · exact List.mem_append_right _ (List.mem_cons_of_mem _ (List.mem_flatMap.mpr ⟨s, hs, hl⟩))

/-- A single block list turns the whole detection into a list of its items. -/
theorem flushed_block (st : YamlState) {s : Selection} (hs : s ∈ d.selected) {f : Field}
    (hf : f ∈ s.fields) (hblock : f.value.IsBlock) :
    ∃ items, (d.detectionLines.foldl YamlState.line st).flushed =
      insertKey st.flushed "detection" (.array items) := by
  have hopen : YamlState.Open (st.line (0, "detection:".toList)) st.flushed "detection" [] :=
    st.open_line detectionKey
  obtain ⟨first, hfirst⟩ : ∃ first, itemLine 12 first ∈ f.lines := by
    obtain ⟨k, value⟩ := f
    cases value with
    | scalar s => exact absurd hblock id
    | inline items => exact absurd hblock id
    | block first rest => exact ⟨first, List.mem_cons_of_mem _ List.mem_cons_self⟩
  have hitem : itemLine 12 first ∈ d.body :=
    d.lines_subset_body hs (List.mem_cons_of_mem _ (List.mem_flatMap.mpr ⟨f, hf, hfirst⟩))
  exact (YamlState.lost_of_item hopen.root hopen.currentKey d.indented_body hitem).flushed_eq

/-- The state in which the reader comes to the detection. -/
def atDetection : YamlState := (d.before.flatMap Entry.lines).foldl YamlState.line .start

/-- What the reader makes of a document, by what it makes of the detection. -/
theorem parseYamlToJson_eq {text : String} (h : significant text.toList = d.lines)
    {detection : Json} (hdetection : (d.detectionLines.foldl YamlState.line d.atDetection).flushed =
      insertKey d.atDetection.flushed "detection" detection) :
    parseYamlToJson text = .ok (.object (ofEntries (d.entries detection))) := by
  have hroot : (d.lines.foldl YamlState.line .start).flushed = ofEntries (d.entries detection) := by
    rw [lines, List.foldl_append, List.foldl_append, YamlState.flushed_entries, ← atDetection,
      hdetection, atDetection, YamlState.flushed_entries, ofEntries, entries, List.foldl_append,
      List.foldl_cons]
    rfl
  rw [parseYamlToJson, h]
  exact congrArg (fun root => Except.ok (Json.object root)) hroot

end Document

end Wardex.Sigma
