import Wardex.Siem.Formats

/-! Which alerts are read back from their line of CEF, and from their line of LEEF. -/

namespace Wardex.Siem

open Wardex.Lib

/-- The text has none of the characters. -/
def Free (stops : List Char) (s : String) : Prop := ∀ c ∈ stops, c ∉ s.toList

/-- The keys of the extension. -/
def cefKeys : List String :=
  ["src", "dst", "cs1", "cs1Label", "cs2", "cs2Label", "cfp1", "cfp1Label"]

/-- The action has no bar and no backslash, the hostname and the reasons have no equals sign and no
backslash, and the techniques are a well-formed value: every backslash in them begins an escape and
every equals sign is escaped. -/
structure CefClean (a : AlertRecord) : Prop where
  action : Free ['|', '\\'] a.action
  hostname : Free ['=', '\\'] a.hostname
  reasons : Free ['=', '\\'] a.joinedReasons
  mitre : .plain '=' ∉ symbols a.mitreStr.toList ∧
    (unescape extensionEscape (symbols a.mitreStr.toList)).isSome

/-! ### Pairs -/

theorem readPairs_nil (key : List Symbol) : readPairs key [] = none := rfl

theorem readPairs_singleton {key last : List Symbol} {fields : List (List Char × List Char)} :
    readPairs key [last] = some fields ↔
      ∃ k v, unescape extensionEscape key = some k ∧ unescape extensionEscape last = some v ∧
        fields = [(k, v)] := by
  simp only [readPairs, Option.bind_eq_bind, Option.bind_eq_some_iff]
  constructor
  · rintro ⟨k, hk, v, hv, hfields⟩
    exact ⟨k, v, hk, hv, (Option.some.inj hfields).symm⟩
  · rintro ⟨k, v, hk, hv, rfl⟩
    exact ⟨k, hk, v, hv, rfl⟩

theorem readPairs_cons {key piece next : List Symbol} {pieces : List (List Symbol)}
    {fields : List (List Char × List Char)} :
    readPairs key (piece :: next :: pieces) = some fields ↔
      ∃ value nextKey k v rest, splitLast (.plain ' ') piece = some (value, nextKey) ∧
        unescape extensionEscape key = some k ∧ unescape extensionEscape value = some v ∧
        readPairs nextKey (next :: pieces) = some rest ∧ fields = (k, v) :: rest := by
  simp only [readPairs, Option.bind_eq_bind, Option.bind_eq_some_iff, Prod.exists]
  constructor
  · rintro ⟨value, nextKey, hsplit, k, hk, v, hv, rest, hrest, hfields⟩
    exact ⟨value, nextKey, k, v, rest, hsplit, hk, hv, hrest, (Option.some.inj hfields).symm⟩
  · rintro ⟨value, nextKey, k, v, rest, hsplit, hk, hv, hrest, rfl⟩
    exact ⟨value, nextKey, hsplit, k, hk, v, hv, rest, hrest, rfl⟩

theorem length_readPairs {key : List Symbol} {pieces : List (List Symbol)}
    {fields : List (List Char × List Char)} (h : readPairs key pieces = some fields) :
    fields.length = pieces.length := by
  induction pieces generalizing key fields with
  | nil => exact absurd h (by simp [readPairs_nil])
  | cons piece pieces ih =>
    cases pieces with
    | nil =>
      rw [readPairs_singleton] at h
      obtain ⟨k, v, -, -, rfl⟩ := h
      rfl
    | cons next pieces =>
      rw [readPairs_cons] at h
      obtain ⟨value, nextKey, k, v, rest, -, -, -, hrest, rfl⟩ := h
      rw [List.length_cons, ih hrest]
      rfl

/-- The first pair has the key that was read before. -/
theorem key_of_readPairs {key : List Symbol} {pieces : List (List Symbol)} {k v : List Char}
    {rest : List (List Char × List Char)} (h : readPairs key pieces = some ((k, v) :: rest)) :
    unescape extensionEscape key = some k := by
  cases pieces with
  | nil => exact absurd h (by simp [readPairs_nil])
  | cons piece pieces =>
    cases pieces with
    | nil =>
      rw [readPairs_singleton] at h
      obtain ⟨k', v', hk, -, hfields⟩ := h
      cases hfields
      exact hk
    | cons next pieces =>
      rw [readPairs_cons] at h
      obtain ⟨value, nextKey, k', v', rest', -, hk, -, -, hfields⟩ := h
      cases hfields
      exact hk

/-- A value that a blank and the next key follow. -/
theorem readPairs_value {key next : List Symbol} {pieces : List (List Symbol)}
    {x word k v v' : List Char} {rest : List (List Char × List Char)}
    (hword : ' ' ∉ word) :
    readPairs key ((symbols (x ++ [' ']) ++ word.map .plain) :: next :: pieces) =
        some ((k, v) :: (word, v') :: rest) ↔
      unescape extensionEscape key = some k ∧ unescape extensionEscape (symbols x) = some v ∧
        readPairs (word.map .plain) (next :: pieces) = some ((word, v') :: rest) := by
  rw [readPairs_cons]
  constructor
  · rintro ⟨value, nextKey, k', v'', rest', hsplit, hk, hv, hrest, hfields⟩
    obtain ⟨hkv, rfl⟩ := List.cons.inj hfields
    obtain ⟨rfl, rfl⟩ := Prod.mk.inj hkv
    obtain ⟨hpiece, -⟩ := splitLast_eq_some.mp hsplit
    -- the next key is as long as the word, so that the blank is the one behind `x`
    have hlength : word.length = nextKey.length := length_of_unescape (key_of_readPairs hrest)
    have hpiece' : symbols (x ++ [' ']) ++ word.map .plain =
        (value ++ [.plain ' ']) ++ nextKey := by
      rw [hpiece, List.append_assoc, List.singleton_append]
    obtain ⟨hx, rfl⟩ := List.append_inj' hpiece' (by rw [List.length_map, hlength])
    obtain ⟨-, rfl⟩ := (symbols_concat_eq (by decide)).mp hx
    exact ⟨hk, hv, hrest⟩
  · rintro ⟨hk, hv, hrest⟩
    refine ⟨symbols x, word.map .plain, k, v, _, ?_, hk, hv, hrest, rfl⟩
    have hx := dangling_notMem_of_unescape (Option.isSome_of_eq_some hv)
    rw [splitLast_eq_some, symbols_concat hx (by decide), List.append_assoc]
    refine ⟨rfl, fun hmem => hword ?_⟩
    obtain ⟨c, hc, hplain⟩ := List.mem_map.mp hmem
    cases hplain
    exact hc

theorem readPairs_last {key last : List Symbol} {k v : List Char} :
    readPairs key [last] = some [(k, v)] ↔
      unescape extensionEscape key = some k ∧ unescape extensionEscape last = some v := by
  rw [readPairs_singleton]
  constructor
  · rintro ⟨k', v', hk, hv, hfields⟩
    cases hfields
    exact ⟨hk, hv⟩
  · rintro ⟨hk, hv⟩
    exact ⟨k, v, hk, hv, rfl⟩

/-! ### The extension -/

/-- The extension that is written with the values. -/
def extension (h r m s : List Char) : List Char :=
  "src=".toList ++ (h ++ ' ' :: ("dst=".toList ++ (h ++ ' ' :: ("cs1=".toList ++ (r ++ ' ' ::
    ("cs1Label=reasons cs2=".toList ++ (m ++ ' ' :: ("cs2Label=mitre cfp1=".toList ++ (s ++ ' ' ::
      "cfp1Label=score".toList)))))))))

/-- What stands before, between and after the equals signs that are written. -/
def segments (h r m s : List Char) : List (List Symbol) :=
  ["src".toList.map .plain, symbols (h ++ [' ']) ++ "dst".toList.map .plain,
    symbols (h ++ [' ']) ++ "cs1".toList.map .plain,
    symbols (r ++ [' ']) ++ "cs1Label".toList.map .plain,
    symbols ("reasons".toList ++ [' ']) ++ "cs2".toList.map .plain,
    symbols (m ++ [' ']) ++ "cs2Label".toList.map .plain,
    symbols ("mitre".toList ++ [' ']) ++ "cfp1".toList.map .plain,
    symbols (s ++ [' ']) ++ "cfp1Label".toList.map .plain, "score".toList.map .plain]

section

variable {h r m s : List Char}

theorem symbols_word_value {word : List Char} (hword : '\\' ∉ word) (x y : List Char) :
    symbols (word ++ (x ++ ' ' :: y)) =
      word.map .plain ++ (symbols (x ++ [' ']) ++ symbols y) := by
  rw [symbols_plain_append hword, symbols_append_cons (by decide)]

theorem symbols_extension (h r m s : List Char) :
    symbols (extension h r m s) = [.plain '='].intercalate (segments h r m s) := by
  have hlast : symbols "cfp1Label=score".toList = "cfp1Label=score".toList.map .plain := rfl
  rw [extension, symbols_word_value (by decide), symbols_word_value (by decide),
    symbols_word_value (by decide), symbols_word_value (by decide), symbols_word_value (by decide),
    hlast]
  simp [segments, List.intercalate_cons_cons, symbols]

theorem equals_notMem_segments (hs : .plain '=' ∉ symbols s) :
    (∀ p ∈ segments h r m s, .plain '=' ∉ p) ↔
      .plain '=' ∉ symbols h ∧ .plain '=' ∉ symbols r ∧ .plain '=' ∉ symbols m := by
  have hsegment (x : List Char) {word : List Char} (hword : '=' ∉ word) :
      .plain '=' ∉ symbols (x ++ [' ']) ++ word.map .plain ↔ .plain '=' ∉ symbols x := by
    rw [List.mem_append, plain_mem_symbols_concat (by decide) (by decide)]
    simp [hword]
  simp only [segments, List.forall_mem_cons]
  rw [hsegment h (by decide), hsegment h (by decide), hsegment r (by decide),
    hsegment m (by decide), hsegment s (by decide)]
  constructor
  · rintro ⟨-, hh, -, hr, -, hm, -⟩
    exact ⟨hh, hr, hm⟩
  · rintro ⟨hh, hr, hm⟩
    refine ⟨by decide, hh, hh, hr, by decide, hm, by decide, hs, by decide, ?_⟩
    exact fun p hp => absurd hp List.not_mem_nil

/-- An extension is read with the keys that were written if and only if no value has an equals sign
that is not escaped and every value can be decoded. -/
theorem readExtension_eq_some (hs : '\\' ∉ s) (hequals : '=' ∉ s)
    {v₀ v₁ v₂ v₃ v₄ v₅ v₆ v₇ : List Char} :
    readExtension (symbols (extension h r m s)) =
        some [("src".toList, v₀), ("dst".toList, v₁), ("cs1".toList, v₂), ("cs1Label".toList, v₃),
          ("cs2".toList, v₄), ("cs2Label".toList, v₅), ("cfp1".toList, v₆),
          ("cfp1Label".toList, v₇)] ↔
      (.plain '=' ∉ symbols h ∧ .plain '=' ∉ symbols r ∧ .plain '=' ∉ symbols m) ∧
        unescape extensionEscape (symbols h) = some v₀ ∧
        unescape extensionEscape (symbols h) = some v₁ ∧
        unescape extensionEscape (symbols r) = some v₂ ∧ "reasons".toList = v₃ ∧
        unescape extensionEscape (symbols m) = some v₄ ∧ "mitre".toList = v₅ ∧ s = v₆ ∧
        "score".toList = v₇ := by
  have hsymbols : symbols s = s.map .plain := symbols_map_plain hs
  have hs' : .plain '=' ∉ symbols s := by
    rw [hsymbols]
    simpa using hequals
  have hplain (x : List Char) (hx : symbols x = x.map .plain) (v : List Char) :
      unescape extensionEscape (symbols x) = some v ↔ x = v := by
    rw [hx, unescape_map_plain, Option.some_inj]
  rw [readExtension, symbols_extension, ← equals_notMem_segments hs']
  by_cases hclean : ∀ p ∈ segments h r m s, .plain '=' ∉ p
  · have hsplit : ([.plain '='].intercalate (segments h r m s)).splitOn (.plain '=') =
        segments h r m s := List.splitOn_intercalate _ hclean (List.cons_ne_nil _ _)
    rw [hsplit]
    refine Iff.trans ?_ (and_iff_right hclean).symm
    show readPairs _ _ = _ ↔ _
    rw [readPairs_value (by decide), readPairs_value (by decide), readPairs_value (by decide),
      readPairs_value (by decide), readPairs_value (by decide), readPairs_value (by decide),
      readPairs_value (by decide), readPairs_last]
    simp only [unescape_map_plain, true_and, hplain "reasons".toList rfl, hplain "mitre".toList rfl,
      hplain s hsymbols, Option.some_inj]
  · refine iff_of_false (fun hread => hclean ?_) fun hread => hclean hread.1
    rw [← length_splitOn_intercalate_iff (by simp [segments])]
    generalize ([.plain '='].intercalate (segments h r m s)).splitOn (.plain '=') =
      pieces at hread ⊢
    cases pieces with
    | nil => exact absurd hread (by simp)
    | cons key pieces =>
      have hlength : 8 = pieces.length := length_readPairs hread
      rw [List.length_cons, ← hlength]
      rfl

/-! ### The line -/

def cefHeader : List (List Symbol) :=
  ["CEF:0", "Wardex", "Wardex", "1.0", "alert"].map fun s => s.toList.map .plain

theorem symbols_cefLine (a : AlertRecord) :
    symbols (cefLine a).toList = (cefHeader.flatMap fun f => f ++ [.plain '|']) ++
      symbols (a.action.toList ++ '|' :: ((cefSeverity a.level).toList ++ '|' ::
        extension a.hostname.toList a.joinedReasons.toList a.mitreStr.toList
          a.score.text.toList)) := by
  have hheader : (cefHeader.flatMap fun f => f ++ [.plain '|']) =
      "CEF:0|Wardex|Wardex|1.0|alert|".toList.map .plain := rfl
  have hplain : '\\' ∉ "CEF:0|Wardex|Wardex|1.0|alert|".toList := by simp
  rw [hheader, ← symbols_plain_append hplain]
  apply congrArg symbols
  unfold cefLine
  simp [extension]

theorem cefSeverity_free (level : String) :
    '|' ∉ (cefSeverity level).toList ∧ '\\' ∉ (cefSeverity level).toList := by
  unfold cefSeverity
  split_ifs <;> decide

/-- The fields of an extension whose keys are the ones that were written. -/
theorem exists_fields_of_keysOf {fields : List (List Char × List Char)}
    (h : keysOf fields = cefKeys) :
    ∃ v₀ v₁ v₂ v₃ v₄ v₅ v₆ v₇, fields = [("src".toList, v₀), ("dst".toList, v₁),
      ("cs1".toList, v₂), ("cs1Label".toList, v₃), ("cs2".toList, v₄), ("cs2Label".toList, v₅),
      ("cfp1".toList, v₆), ("cfp1Label".toList, v₇)] := by
  have hkeys := keysOf_eq.mp h
  have hlength : fields.length = 8 := by simpa [cefKeys] using congrArg List.length hkeys
  match fields, hlength with
  | [(k₀, v₀), (k₁, v₁), (k₂, v₂), (k₃, v₃), (k₄, v₄), (k₅, v₅), (k₆, v₆), (k₇, v₇)], _ =>
    simp only [cefKeys, List.map_cons, List.map_nil, List.cons.injEq] at hkeys
    obtain ⟨rfl, rfl, rfl, rfl, rfl, rfl, rfl, rfl, -⟩ := hkeys
    exact ⟨v₀, v₁, v₂, v₃, v₄, v₅, v₆, v₇, rfl⟩

theorem headerEscape_backslash {c d : Char} (h : headerEscape c = some d) :
    c = '\\' ↔ d = '\\' := by
  unfold headerEscape at h
  split at h
  · rw [Option.some.inj h]
  · exact absurd h (by simp)

theorem Free.pair {c d : Char} {s : String} (hc : c ∉ s.toList) (hd : d ∉ s.toList) :
    Free [c, d] s := by
  intro e he
  rcases List.mem_pair.mp he with rfl | rfl
  · exact hc
  · exact hd

/-- The extension of the alert. -/
def cefExtension (a : AlertRecord) : List Char :=
  extension a.hostname.toList a.joinedReasons.toList a.mitreStr.toList a.score.text.toList

/-- What the line has behind the action and its bar. -/
def behindAction (a : AlertRecord) : List Char :=
  (cefSeverity a.level).toList ++ '|' :: cefExtension a

theorem symbols_behindAction (a : AlertRecord) :
    symbols (behindAction a) =
      (cefSeverity a.level).toList.map .plain ++ .plain '|' :: symbols (cefExtension a) := by
  rw [behindAction, symbols_plain_append (cefSeverity_free a.level).2, symbols_cons (by decide)]

/-- The five fields of the header that are the same in every line come first. -/
theorem takeFields_cefLine (a : AlertRecord) :
    takeFields (.plain '|') 7 (symbols (cefLine a).toList) =
      (takeFields (.plain '|') 2 (symbols (a.action.toList ++ '|' :: behindAction a))).map
        fun p => (cefHeader ++ p.1, p.2) := by
  rw [symbols_cefLine]
  have hheader : ∀ f ∈ cefHeader, .plain '|' ∉ f := by decide
  exact takeFields_flatMap hheader 2 _

/-- The action and the severity are the last two if the action has no bar and no backslash. -/
theorem takeFields_action {a : AlertRecord} (hbar : '|' ∉ a.action.toList)
    (hslash : '\\' ∉ a.action.toList) :
    takeFields (.plain '|') 2 (symbols (a.action.toList ++ '|' :: behindAction a)) =
      some ([a.action.toList.map .plain, (cefSeverity a.level).toList.map .plain],
        symbols (cefExtension a)) := by
  rw [takeFields_eq_some]
  refine ⟨rfl, ?_, ?_⟩
  · intro f hf
    rcases List.mem_pair.mp hf with rfl | rfl
    · simpa using hbar
    · simpa using (cefSeverity_free a.level).1
  · rw [symbols_plain_append hslash, symbols_cons (by decide), symbols_behindAction]
    simp

/-- Only such an action is read back, and then the extension is what is left. -/
theorem action_of_takeFields {a : AlertRecord} {f g rest : List Symbol}
    (h : takeFields (.plain '|') 2 (symbols (a.action.toList ++ '|' :: behindAction a)) =
      some ([f, g], rest)) (hname : unescape headerEscape f = some a.action.toList) :
    '\\' ∉ a.action.toList ∧ '|' ∉ a.action.toList ∧ rest = symbols (cefExtension a) := by
  obtain ⟨-, hfree, htext⟩ := takeFields_eq_some.mp h
  have htext' : symbols (a.action.toList ++ '|' :: behindAction a) =
      f ++ .plain '|' :: (g ++ .plain '|' :: rest) := by
    rw [htext]
    simp
  have hf : .plain '|' ∉ f := hfree f List.mem_cons_self
  have hg : .plain '|' ∉ g := hfree g (List.mem_cons_of_mem f List.mem_cons_self)
  have hclean := notMem_of_unescape_field (fun _ _ => headerEscape_backslash) (by decide) htext'
    hf hname
  rw [symbols_plain_append hclean.1, symbols_cons (by decide), symbols_behindAction] at htext'
  have haction : .plain '|' ∉ a.action.toList.map Symbol.plain := by simpa using hclean.2
  have hseverity : .plain '|' ∉ (cefSeverity a.level).toList.map Symbol.plain := by
    simpa using (cefSeverity_free a.level).1
  obtain ⟨-, htext'⟩ := fields_unique_of_not_mem htext' haction hf
  obtain ⟨-, hrest⟩ := fields_unique_of_not_mem htext' hseverity hg
  exact ⟨hclean.1, hclean.2, hrest.symm⟩

/-- An alert is read back from its line if and only if it is clean. -/
theorem readCef_cefLine (a : AlertRecord) :
    readCef (cefLine a) = some ⟨a.hostname, a.action, a.joinedReasons, cefKeys⟩ ↔ CefClean a := by
  have hscore (c : Char) (hc : c ∈ ['\\', '=', '|', '"', ']', ' ', '\t', '\n']) :
      c ∉ a.score.text.toList := notMem_text a.score hc
  constructor
  · intro h
    simp only [readCef, takeFields_cefLine, Option.bind_eq_bind, Option.bind_eq_some_iff,
      Option.map_eq_some_iff, Option.pure_def, Option.some.injEq] at h
    obtain ⟨-, ⟨⟨fs, rest⟩, hfs, rfl⟩, name, hname, action, haction, fields, hread, host, hhost,
      reasons, hreasons, hentry⟩ := h
    obtain ⟨rfl, hactionEq, rfl, hkeys⟩ := LogEntry.mk.inj hentry
    obtain ⟨hlength, -, -⟩ := takeFields_eq_some.mp hfs
    match fs, hlength with
    | [f, g], _ =>
      obtain rfl : f = name := Option.some.inj hname
      obtain rfl : action = a.action.toList := by rw [← hactionEq, String.toList_ofList]
      obtain ⟨hslash, hbar, rfl⟩ := action_of_takeFields hfs haction
      obtain ⟨v₀, v₁, v₂, v₃, v₄, v₅, v₆, v₇, rfl⟩ := exists_fields_of_keysOf hkeys
      have hv₀ : v₀ = a.hostname.toList := by
        rw [← Option.some.inj hhost, String.toList_ofList]
      have hv₂ : v₂ = a.joinedReasons.toList := by
        rw [← Option.some.inj hreasons, String.toList_ofList]
      obtain ⟨⟨hhostEq, hreasonsEq, hmitreEq⟩, hhostValue, -, hreasonsValue, -, hmitreValue, -⟩ :=
        (readExtension_eq_some (hscore _ (by decide)) (hscore _ (by decide))).mp hread
      rw [hv₀] at hhostValue
      rw [hv₂] at hreasonsValue
      have hhostSlash := backslash_notMem_of_unescape hhostValue
      have hreasonsSlash := backslash_notMem_of_unescape hreasonsValue
      rw [symbols_map_plain hhostSlash] at hhostEq
      rw [symbols_map_plain hreasonsSlash] at hreasonsEq
      exact ⟨Free.pair hbar hslash, Free.pair (by simpa using hhostEq) hhostSlash,
        Free.pair (by simpa using hreasonsEq) hreasonsSlash, hmitreEq,
        Option.isSome_of_eq_some hmitreValue⟩
  · intro h
    have hhostSlash : '\\' ∉ a.hostname.toList := h.hostname _ (by decide)
    have hhostEq : '=' ∉ a.hostname.toList := h.hostname _ (by decide)
    have hreasonsSlash : '\\' ∉ a.joinedReasons.toList := h.reasons _ (by decide)
    have hreasonsEq : '=' ∉ a.joinedReasons.toList := h.reasons _ (by decide)
    obtain ⟨mitre, hmitre⟩ := Option.isSome_iff_exists.mp h.mitre.2
    have hhost := symbols_map_plain hhostSlash
    have hreasons := symbols_map_plain hreasonsSlash
    have hread := (readExtension_eq_some (h := a.hostname.toList) (r := a.joinedReasons.toList)
      (m := a.mitreStr.toList) (hscore '\\' (by decide)) (hscore '=' (by decide))).mpr
      ⟨⟨by simpa [hhost] using hhostEq, by simpa [hreasons] using hreasonsEq, h.mitre.1⟩,
        by rw [hhost, unescape_map_plain], by rw [hhost, unescape_map_plain],
        by rw [hreasons, unescape_map_plain], rfl, hmitre, rfl, rfl, rfl⟩
    have hfs := takeFields_action (h.action _ (by decide)) (h.action _ (by decide))
    have hname : unescape headerEscape (a.action.toList.map .plain) = some a.action.toList :=
      unescape_map_plain _
    have hhostname : String.ofList a.hostname.toList = a.hostname := String.ofList_toList
    have haction : String.ofList a.action.toList = a.action := String.ofList_toList
    have hreasonsText : String.ofList a.joinedReasons.toList = a.joinedReasons :=
      String.ofList_toList
    simp only [readCef, takeFields_cefLine, Option.bind_eq_bind, Option.bind_eq_some_iff,
      Option.map_eq_some_iff, Option.pure_def, Option.some.injEq]
    refine ⟨_, ⟨_, hfs, rfl⟩, _, rfl, _, hname, _, hread, _, rfl, _, rfl, ?_⟩
    rw [hhostname, haction, hreasonsText]
    rfl

end

/-! ## LEEF -/

def leefKeys : List String := ["devTime", "src", "sev", "action", "reasons", "mitre", "score"]

/-- No text of the alert has a tab. -/
structure LeefClean (a : AlertRecord) : Prop where
  timestamp : Free ['\t'] a.timestamp
  hostname : Free ['\t'] a.hostname
  level : Free ['\t'] a.level
  action : Free ['\t'] a.action
  reasons : Free ['\t'] a.joinedReasons
  mitre : Free ['\t'] a.mitreStr

def leefHeader : List (List Char) :=
  ["LEEF:2.0", "Wardex", "Wardex", "1.0", "alert"].map String.toList

/-- The attributes as they are written. -/
def leefAttributes (a : AlertRecord) : List (List Char) :=
  ["devTime".toList ++ '=' :: a.timestamp.toList, "src".toList ++ '=' :: a.hostname.toList,
    "sev".toList ++ '=' :: a.level.toList, "action".toList ++ '=' :: a.action.toList,
    "reasons".toList ++ '=' :: a.joinedReasons.toList, "mitre".toList ++ '=' :: a.mitreStr.toList,
    "score".toList ++ '=' :: a.score.text.toList]

theorem toList_leefLine (a : AlertRecord) :
    (leefLine a).toList = (leefHeader.flatMap fun f => f ++ ['|']) ++
      ['\t'].intercalate ([] :: leefAttributes a) := by
  have hheader : (leefHeader.flatMap fun f => f ++ ['|']) =
      "LEEF:2.0|Wardex|Wardex|1.0|alert|".toList := rfl
  rw [hheader]
  unfold leefLine
  simp [leefAttributes, List.intercalate_cons_cons]

theorem takeFields_leefLine (a : AlertRecord) :
    takeFields '|' 5 (leefLine a).toList =
      some (leefHeader, ['\t'].intercalate ([] :: leefAttributes a)) := by
  rw [takeFields_eq_some]
  exact ⟨rfl, by decide, toList_leefLine a⟩

theorem tab_notMem_leefAttributes (a : AlertRecord) :
    (∀ p ∈ [] :: leefAttributes a, '\t' ∉ p) ↔ LeefClean a := by
  have hattribute (key text : String) (hkey : '\t' ∉ key.toList) :
      '\t' ∉ key.toList ++ '=' :: text.toList ↔ Free ['\t'] text := by
    simp [Free, hkey]
  have hscore : Free ['\t'] a.score.text := by
    intro c hc
    rw [List.mem_singleton.mp hc]
    exact notMem_text a.score (by decide)
  simp only [leefAttributes, List.forall_mem_cons]
  rw [hattribute _ _ (by decide), hattribute _ _ (by decide), hattribute _ _ (by decide),
    hattribute _ _ (by decide), hattribute _ _ (by decide), hattribute _ _ (by decide),
    hattribute _ _ (by decide)]
  constructor
  · rintro ⟨-, htimestamp, hhostname, hlevel, haction, hreasons, hmitre, -⟩
    exact ⟨htimestamp, hhostname, hlevel, haction, hreasons, hmitre⟩
  · rintro ⟨htimestamp, hhostname, hlevel, haction, hreasons, hmitre⟩
    exact ⟨List.not_mem_nil, htimestamp, hhostname, hlevel, haction, hreasons, hmitre, hscore,
      fun p hp => absurd hp List.not_mem_nil⟩

/-- The attributes are read back with their keys. -/
theorem mapM_splitOnce_leefAttributes (a : AlertRecord) :
    (leefAttributes a).mapM (splitOnce '=') = some
      [("devTime".toList, a.timestamp.toList), ("src".toList, a.hostname.toList),
        ("sev".toList, a.level.toList), ("action".toList, a.action.toList),
        ("reasons".toList, a.joinedReasons.toList), ("mitre".toList, a.mitreStr.toList),
        ("score".toList, a.score.text.toList)] := by
  simp only [leefAttributes, List.mapM_cons, List.mapM_nil]
  rw [splitOnce_append (by decide), splitOnce_append (by decide), splitOnce_append (by decide),
    splitOnce_append (by decide), splitOnce_append (by decide), splitOnce_append (by decide),
    splitOnce_append (by decide)]
  rfl

theorem length_of_readAttributes {pieces : List (List Char)} {entry : LogEntry}
    (h : readAttributes pieces = some entry) : pieces.length = entry.keys.length + 1 := by
  match pieces, h with
  | [] :: attributes, h =>
    simp only [readAttributes, Option.bind_eq_bind, Option.bind_eq_some_iff, Option.pure_def,
      Option.some.injEq] at h
    obtain ⟨fields, hfields, hostname, -, action, -, reasons, -, rfl⟩ := h
    rw [List.length_cons, keysOf, List.length_map, length_of_mapM hfields]

/-- An alert is read back from its line if and only if it has no tab. -/
theorem readLeef_leefLine (a : AlertRecord) :
    readLeef (leefLine a) = some ⟨a.hostname, a.action, a.joinedReasons, leefKeys⟩ ↔
      LeefClean a := by
  rw [← tab_notMem_leefAttributes, readLeef, takeFields_leefLine]
  change readAttributes ((['\t'].intercalate ([] :: leefAttributes a)).splitOn '\t') = _ ↔ _
  constructor
  · intro h
    rw [← length_splitOn_intercalate_iff (List.cons_ne_nil _ _), length_of_readAttributes h]
    rfl
  · intro h
    have hhostname : String.ofList a.hostname.toList = a.hostname := String.ofList_toList
    have haction : String.ofList a.action.toList = a.action := String.ofList_toList
    have hreasons : String.ofList a.joinedReasons.toList = a.joinedReasons := String.ofList_toList
    rw [List.splitOn_intercalate _ h (List.cons_ne_nil _ _)]
    simp only [readAttributes, mapM_splitOnce_leefAttributes, Option.bind_eq_bind,
      Option.bind_eq_some_iff, Option.pure_def, Option.some.injEq]
    refine ⟨_, rfl, _, rfl, _, rfl, _, rfl, ?_⟩
    rw [hhostname, haction, hreasons]
    rfl

end Wardex.Siem
