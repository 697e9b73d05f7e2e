import Mathlib.Data.List.Nodup
import Wardex.Siem.Cef

/-! Which alerts are read back from their line of syslog. -/

namespace Wardex.Siem

open Wardex.Lib

def syslogKeys : List String := ["score", "level", "confidence", "mitre"]

/-- The text is one piece between quotes: it has no quote that is not escaped, and does not end
within an escape. -/
def Quotable (x : List Char) : Prop := .dangling ∉ symbols x ∧ .plain '"' ∉ symbols x

/-- The text may stand between quotes in an element. -/
structure WellQuoted (s : String) : Prop where
  quotable : Quotable s.toList
  bracket : .plain ']' ∉ symbols s.toList

/-- The fields of the header have no blank, and the values of the structured data are well
quoted. -/
structure SyslogClean (a : AlertRecord) : Prop where
  timestamp : Free [' '] a.timestamp
  hostname : Free [' '] a.hostname
  action : Free [' '] a.action
  level : WellQuoted a.level
  mitre : WellQuoted a.mitreStr

/-! ### Parameters -/

/-- The name of a parameter as it is written. -/
def paramName (key : List Char) : List Symbol := (' ' :: key ++ ['=']).map .plain

/-- The name has no blank, equals sign, quote or closing bracket. -/
def IsName (key : List Char) : Prop := ∀ c ∈ key, ¬ (c = ' ' ∨ c = '=' ∨ c = '"' ∨ c = ']')

theorem IsName.blank {key : List Char} (h : IsName key) : ' ' ∉ key :=
  fun hmem => h _ hmem (Or.inl rfl)

theorem readName_eq_some {ts : List Symbol} {key : List Char} :
    readName ts = some key ↔
      ts = key.map .plain ∧ IsName key := by
  unfold IsName
  induction ts generalizing key with
  | nil => cases key <;> simp [readName]
  | cons t ts ih =>
    simp only [readName] at ih
    cases key with
    | nil =>
      simp [readName, List.mapM_cons, Option.bind_eq_some_iff]
    | cons c key =>
      simp only [readName, List.mapM_cons, Option.bind_eq_bind, Option.bind_eq_some_iff,
        Option.pure_def, Option.some.injEq, List.cons.injEq, ih, List.map_cons,
        List.forall_mem_cons]
      constructor
      · rintro ⟨d, hd, key', ⟨hts, hkey⟩, rfl, rfl⟩
        cases t with
        | plain e =>
          simp only [Option.ite_none_left_eq_some, Option.some.injEq] at hd
          obtain ⟨hfree, rfl⟩ := hd
          exact ⟨⟨rfl, hts⟩, hfree, hkey⟩
        | escaped e => exact absurd hd (by simp)
        | dangling => exact absurd hd (by simp)
      · rintro ⟨⟨rfl, hts⟩, hfree, hkey⟩
        exact ⟨c, by simp only [if_neg hfree], key, ⟨hts, hkey⟩, rfl, rfl⟩

theorem readParamName_eq_some {ts : List Symbol} {key : List Char} :
    readParamName ts = some key ↔ ts = paramName key ∧ IsName key := by
  unfold readParamName
  constructor
  · intro h
    simp only [Option.ite_none_right_eq_some, readName_eq_some] at h
    obtain ⟨⟨hhead, hlast⟩, hkey, hname⟩ := h
    refine ⟨?_, hname⟩
    cases ts with
    | nil => exact absurd hhead (by simp)
    | cons t ts =>
      obtain rfl : t = .plain ' ' := Option.some.inj hhead
      rcases List.eq_nil_or_concat ts with rfl | ⟨init, last, rfl⟩
      · exact absurd hlast (by decide)
      · rw [List.concat_eq_append] at hlast hkey ⊢
        rw [← List.cons_append, List.getLast?_concat] at hlast
        rw [List.tail_cons, List.dropLast_concat] at hkey
        rw [Option.some.inj hlast, hkey]
        simp [paramName]
  · rintro ⟨rfl, hname⟩
    have hkey : (paramName key).tail.dropLast = key.map .plain := by simp [paramName]
    have hends : (paramName key).head? = some (.plain ' ') ∧
        (paramName key).getLast? = some (.plain '=') := by
      refine ⟨rfl, ?_⟩
      rw [paramName, List.map_append]
      exact List.getLast?_concat
    rw [if_pos hends, hkey, readName_eq_some]
    exact ⟨rfl, hname⟩

theorem readParams_cons {pieces : List (List Symbol)} {key u : List Char}
    {rest : List (List Char × List Char)} :
    readParams pieces = some ((key, u) :: rest) ↔
      ∃ v tail, pieces = paramName key :: v :: tail ∧ IsName key ∧ unquote v = u ∧
        readParams tail = some rest := by
  constructor
  · intro h
    match pieces, h with
    | [last], h => exact absurd h (by simp [readParams])
    | name :: v :: tail, h =>
      simp only [readParams, Option.bind_eq_bind, Option.bind_eq_some_iff, Option.pure_def,
        Option.some.injEq, List.cons.injEq, Prod.mk.injEq] at h
      obtain ⟨key', hkey, params, hparams, ⟨rfl, rfl⟩, rfl⟩ := h
      obtain ⟨rfl, hname⟩ := readParamName_eq_some.mp hkey
      exact ⟨v, tail, rfl, hname, rfl, hparams⟩
  · rintro ⟨v, tail, rfl, hname, rfl, hparams⟩
    have hkey := readParamName_eq_some.mpr ⟨rfl, hname⟩
    simp only [readParams, hkey, hparams, Option.bind_eq_bind, Option.bind_some, Option.pure_def]

theorem readParams_nil {pieces : List (List Symbol)} :
    readParams pieces = some [] ↔ pieces = [[]] := by
  constructor
  · intro h
    match pieces, h with
    | [last], h =>
      simp only [readParams, Option.ite_none_right_eq_some] at h
      rw [h.1]
    | name :: v :: tail, h =>
      simp only [readParams, Option.bind_eq_bind, Option.bind_eq_some_iff, Option.pure_def,
        Option.some.injEq] at h
      obtain ⟨key, -, params, -, hcons⟩ := h
      exact absurd hcons (List.cons_ne_nil _ _)
  · rintro rfl
    rfl

/-- A piece that does not begin with a blank is a value, and the piece before it the name. -/
theorem readParams_value {before : List (List Symbol)} {name value : List Symbol}
    {after : List (List Symbol)} {params : List (List Char × List Char)}
    (hne : value ≠ []) (hvalue : value.head? ≠ some (.plain ' '))
    (h : readParams (before ++ name :: value :: after) = some params) :
    ∃ first key rest, params = first ++ (key, unquote value) :: rest ∧
      before.length = 2 * first.length ∧ name = paramName key ∧ IsName key ∧
      readParams after = some rest := by
  induction params generalizing before with
  | nil =>
    have hpieces := congrArg List.length (readParams_nil.mp h)
    simp only [List.length_append, List.length_cons, List.length_nil] at hpieces
    omega
  | cons p params ih =>
    obtain ⟨v, tail, hpieces, hname, hunquote, hparams⟩ := readParams_cons.mp h
    match before, hpieces with
    | [], hpieces =>
      obtain ⟨rfl, htail⟩ := List.cons.inj hpieces
      obtain ⟨rfl, rfl⟩ := List.cons.inj htail
      exact ⟨[], p.1, params, by rw [hunquote, List.nil_append], rfl, rfl, hname, hparams⟩
    | [x], hpieces =>
      -- the value would be the next name
      obtain ⟨-, htail⟩ := List.cons.inj hpieces
      obtain ⟨-, rfl⟩ := List.cons.inj htail
      cases params with
      | nil => exact absurd (List.cons.inj (readParams_nil.mp hparams)).1 hne
      | cons q params =>
        obtain ⟨v', tail', hpieces', -⟩ := readParams_cons.mp hparams
        rw [(List.cons.inj hpieces').1] at hvalue
        exact absurd rfl hvalue
    | x :: y :: before, hpieces =>
      obtain ⟨-, htail⟩ := List.cons.inj hpieces
      obtain ⟨-, rfl⟩ := List.cons.inj htail
      obtain ⟨first, key, rest, rfl, hlength, hfound⟩ := ih hparams
      exact ⟨p :: first, key, rest, rfl, by simp only [List.length_cons]; omega, hfound⟩

/-! ### The element -/

/-- The parameters that are written with the values. -/
def writtenParams (score level confidence mitre : List Char) : List Char :=
  " score=".toList ++ '"' :: (score ++ '"' :: (" level=".toList ++ '"' :: (level ++ '"' ::
    (" confidence=".toList ++ '"' :: (confidence ++ '"' :: (" mitre=".toList ++ '"' ::
      (mitre ++ ['"'])))))))

variable {score level confidence mitre : List Char}

/-- A text can be cut at a character behind another one, neither of them a backslash. -/
theorem symbols_cut {c d : Char} (hc : c ≠ '\\') (hd : d ≠ '\\') (x y : List Char) :
    symbols (x ++ c :: d :: y) = symbols (x ++ [c]) ++ .plain d :: symbols y := by
  rw [symbols_append_cons hc, symbols_cons hd]

theorem symbols_plain_cut {x : List Char} (hx : '\\' ∉ x) (y : List Char) :
    symbols (x ++ '"' :: y) = x.map .plain ++ .plain '"' :: symbols y := by
  rw [symbols_plain_append hx, symbols_cons (by decide)]

/-- The text cut at the quotes that are written; what stands before it and the level may reach over
a quote. -/
theorem symbols_writtenParams (v : List Char) (hscore : '\\' ∉ score)
    (hconfidence : '\\' ∉ confidence) :
    symbols (v ++ writtenParams score level confidence mitre) =
      symbols (v ++ " score=".toList) ++ .plain '"' :: (score.map .plain ++ .plain '"' ::
        (paramName "level".toList ++ .plain '"' ::
          (symbols (level ++ '"' :: " confidence=".toList) ++ .plain '"' ::
            (confidence.map .plain ++ .plain '"' :: (paramName "mitre".toList ++ .plain '"' ::
              symbols (mitre ++ ['"'])))))) := by
  have hfirst (y : List Char) : symbols (v ++ (" score=".toList ++ '"' :: y)) =
      symbols (v ++ " score=".toList) ++ .plain '"' :: symbols y := by
    have hcut := symbols_cut (c := '=') (d := '"') (by decide) (by decide) (v ++ " score".toList) y
    simpa using hcut
  have hlevel (y : List Char) :
      symbols (level ++ '"' :: (" confidence=".toList ++ '"' :: y)) =
        symbols (level ++ '"' :: " confidence=".toList) ++ .plain '"' :: symbols y := by
    have hcut := symbols_cut (c := '=') (d := '"') (by decide) (by decide)
      (level ++ '"' :: " confidence".toList) y
    simpa using hcut
  have hlevelName : paramName "level".toList = " level=".toList.map .plain := rfl
  have hmitreName : paramName "mitre".toList = " mitre=".toList.map .plain := rfl
  have hlevelPlain : '\\' ∉ " level=".toList := by decide
  have hmitrePlain : '\\' ∉ " mitre=".toList := by decide
  unfold writtenParams
  rw [hfirst, symbols_plain_cut hscore, symbols_plain_cut hlevelPlain, hlevel,
    symbols_plain_cut hconfidence, symbols_plain_cut hmitrePlain, hlevelName, hmitreName]

theorem sourceOf_paramName (key : List Char) :
    sourceOf (paramName key) = ' ' :: (key ++ ['=']) := by
  have hplain (x : List Char) : sourceOf (x.map .plain) = x := by
    simp [sourceOf, Symbol.source, List.flatMap_map]
  rw [paramName, hplain, List.cons_append]

/-- A name behind a text begins at the last blank. -/
theorem paramName_unique {z : List Symbol} {x key key' : List Char}
    (h : symbols (x ++ ' ' :: (key' ++ ['='])) = z ++ paramName key) (hkey : ' ' ∉ key)
    (hkey' : ' ' ∉ key') : x = sourceOf z ∧ key' = key := by
  have hsource : x ++ ' ' :: (key' ++ ['=']) = sourceOf z ++ ' ' :: (key ++ ['=']) := by
    rw [← sourceOf_symbols (x ++ ' ' :: (key' ++ ['='])), h, sourceOf_append, sourceOf_paramName]
  have hlast : splitLast ' ' (x ++ ' ' :: (key' ++ ['='])) = some (x, key' ++ ['=']) :=
    splitLast_eq_some.mpr ⟨rfl, by simpa using hkey'⟩
  rw [splitLast_eq_some.mpr ⟨hsource, by simpa using hkey⟩] at hlast
  obtain ⟨hx, hname⟩ := Prod.mk.inj (Option.some.inj hlast)
  exact ⟨hx.symm, (List.append_cancel_right hname).symm⟩

/-- The key before `key` values, found by its name. -/
theorem length_of_keys {first rest : List (List Char × List Char)} {key : List Char}
    {v : List Char} (before : List (List Char)) {after : List (List Char)}
    (h : (first ++ (key, v) :: rest).map Prod.fst = before ++ key :: after)
    (hnodup : (before ++ key :: after).Nodup) :
    first.length = before.length ∧ rest.map Prod.fst = after := by
  rw [List.map_append, List.map_cons] at h
  have hfirst : key ∉ first.map Prod.fst := by
    rw [← h] at hnodup
    exact fun hmem => (List.nodup_middle.mp hnodup).notMem (List.mem_append_left _ hmem)
  have hbefore : key ∉ before :=
    fun hmem => (List.nodup_middle.mp hnodup).notMem (List.mem_append_left _ hmem)
  obtain ⟨hkeys, hrest⟩ := fields_unique_of_not_mem h hfirst hbefore
  refine ⟨?_, hrest⟩
  rw [← hkeys, List.length_map]

/-- The level is one piece if the name behind it is the next one. -/
theorem quotable_of_level {y : List Symbol}
    (h : symbols (level ++ '"' :: " confidence=".toList) =
      y ++ .plain '"' :: paramName "confidence".toList)
    (hy : .plain '"' ∉ y) : Quotable level := by
  have hcut := symbols_append (dangling_notMem_concat (c := '"') (by decide) level)
    " confidence=".toList
  have hname : symbols " confidence=".toList = paramName "confidence".toList := rfl
  rw [List.append_assoc, List.singleton_append, h, hname, ← List.singleton_append,
    ← List.append_assoc] at hcut
  have hlevel := (symbols_concat_eq (by decide)).mp (List.append_cancel_right hcut).symm
  exact ⟨hlevel.1, hlevel.2 ▸ hy⟩

/-- The techniques are one piece if nothing comes behind them. -/
theorem quotable_of_mitre {y : List Symbol}
    (h : (symbols (mitre ++ ['"'])).splitOn (.plain '"') = [y, []]) : Quotable mitre := by
  have hmitre : symbols (mitre ++ ['"']) = y ++ [.plain '"'] := by
    have hpieces : (symbols (mitre ++ ['"'])).splitOn (.plain '"') = [y] ++ [[]] := h
    simpa using eq_of_splitOn_concat hpieces
  have hy : .plain '"' ∉ y := not_mem_of_mem_splitOn (h ▸ List.mem_cons_self)
  have hpieces := (symbols_concat_eq (by decide)).mp hmitre
  exact ⟨hpieces.1, hpieces.2 ▸ hy⟩

theorem plain_notMem_text (r : Rounded) {c : Char}
    (hc : c ∈ ['\\', '=', '|', '"', ']', ' ', '\t', '\n']) :
    Symbol.plain c ∉ r.text.toList.map Symbol.plain := by
  simpa using notMem_text r hc

/-- A number is read as a value. -/
theorem text_isValue (r : Rounded) : r.text.toList.map Symbol.plain ≠ [] ∧
    (r.text.toList.map Symbol.plain).head? ≠ some (.plain ' ') := by
  refine ⟨by simpa using text_ne_nil r, fun hhead => ?_⟩
  exact plain_notMem_text r (c := ' ') (by decide) (List.mem_of_mem_head? hhead)

theorem exists_splitOn_concat {α : Type*} [DecidableEq α] (sep : α) (l : List α) :
    ∃ init last, l.splitOn sep = init ++ [last] := by
  obtain ⟨init, last, hlast⟩ :=
    (List.eq_nil_or_concat (l.splitOn sep)).resolve_left (List.splitOn_ne_nil sep l)
  exact ⟨init, last, by rw [hlast, List.concat_eq_append]⟩

variable {score confidence : Rounded} {params : List (List Char × List Char)}

/-- The pieces behind the first number. -/
def laterPieces (level mitre : List Char) (confidence : Rounded) : List (List Symbol) :=
  paramName "level".toList ::
    ((symbols (level ++ '"' :: " confidence=".toList)).splitOn (.plain '"')
    ++ confidence.text.toList.map .plain :: paramName "mitre".toList ::
      (symbols (mitre ++ ['"'])).splitOn (.plain '"'))

/-- The first key shows that the name of the element has no blank, so that it is all that stands
before the parameters. -/
theorem readParams_of_readElement {v : List Char}
    (h : readElement (symbols (v ++ writtenParams score.text.toList level confidence.text.toList
      mitre)) = some params)
    (hkeys : keysOf params = syslogKeys) :
    ' ' ∉ v ∧ ∃ rest, readParams (laterPieces level mitre confidence) = some rest ∧
      rest.map Prod.fst = ["level", "confidence", "mitre"].map String.toList := by
  simp only [readElement, Option.bind_eq_bind, Option.bind_eq_some_iff] at h
  obtain ⟨name, hname, hparams⟩ := h
  have hcut := List.takeWhile_append_dropWhile (p := fun t => decide (t ≠ Symbol.plain ' '))
    (l := symbols (v ++ writtenParams score.text.toList level confidence.text.toList mitre))
  obtain ⟨hnameEq, hnameChars⟩ := readName_eq_some.mp hname
  rw [hnameEq] at hcut
  generalize List.dropWhile _ _ = behind at hcut hparams
  rw [symbols_writtenParams v (notMem_text score (by decide))
    (notMem_text confidence (by decide))] at hcut
  -- the name has no quote, so that it ends before the first value
  have hnameQuote : Symbol.plain '"' ∉ name.map Symbol.plain := by
    simpa using fun hmem => hnameChars _ hmem (Or.inr (Or.inr (Or.inl rfl)))
  obtain ⟨r, hr⟩ := prefix_of_not_mem hnameQuote ⟨behind, hcut⟩
  rw [← hr, List.append_assoc] at hcut
  rw [List.append_cancel_left hcut, List.splitOn_append_cons_self,
    List.splitOn_append_cons_self_of_not_mem (plain_notMem_text score (by decide)),
    List.splitOn_append_cons_self_of_not_mem (by decide), List.splitOn_append_cons_self,
    List.splitOn_append_cons_self_of_not_mem (plain_notMem_text confidence (by decide)),
    List.splitOn_append_cons_self_of_not_mem (by decide)] at hparams
  obtain ⟨init, last, hlast⟩ := exists_splitOn_concat (.plain '"') r
  rw [hlast, List.append_assoc, List.singleton_append] at hparams
  -- the first number is a value, so that the name before it is the first key
  obtain ⟨first, key, rest, rfl, hlength, rfl, hkey, hrest⟩ :=
    readParams_value (text_isValue score).1 (text_isValue score).2 hparams
  rw [eq_of_splitOn_concat hlast, ← List.append_assoc] at hr
  have hscoreText : v ++ " score=".toList = v ++ ' ' :: ("score".toList ++ ['=']) := rfl
  rw [hscoreText] at hr
  obtain ⟨hv, rfl⟩ := paramName_unique hr.symm hkey.blank (by decide)
  obtain ⟨hfirst, hafter⟩ := length_of_keys [] (keysOf_eq.mp hkeys) (by decide)
  obtain rfl : init = [] := by
    rw [hfirst] at hlength
    exact List.eq_nil_of_length_eq_zero hlength
  have hvName : v = name := by
    rw [hv, List.flatMap_nil, List.append_nil]
    simp [sourceOf, Symbol.source, List.flatMap_map]
  exact ⟨hvName ▸ fun hmem => hnameChars _ hmem (Or.inl rfl), rest, hrest, hafter⟩

/-- The third key shows that the level stands between its quotes, and the end that the techniques
do. -/
theorem quotable_of_readParams
    (h : readParams (laterPieces level mitre confidence) = some params)
    (hkeys : params.map Prod.fst = ["level", "confidence", "mitre"].map String.toList) :
    Quotable level ∧ Quotable mitre := by
  obtain ⟨init, last, hlast⟩ := exists_splitOn_concat (.plain '"')
    (symbols (level ++ '"' :: " confidence=".toList))
  rw [laterPieces, hlast, List.append_assoc, List.singleton_append, ← List.cons_append] at h
  -- the second number is a value, so that the name before it is the third key
  obtain ⟨first, key, rest, rfl, hlength, rfl, hkey, hrest⟩ :=
    readParams_value (text_isValue confidence).1 (text_isValue confidence).2 h
  have hlevelText := eq_of_splitOn_concat hlast
  have hconfidenceText : level ++ '"' :: " confidence=".toList =
      (level ++ ['"']) ++ ' ' :: ("confidence".toList ++ ['=']) := by
    rw [List.append_assoc]
    rfl
  rw [hconfidenceText] at hlevelText
  obtain ⟨-, rfl⟩ := paramName_unique hlevelText hkey.blank (by decide)
  obtain ⟨hfirst, hlastKey⟩ := length_of_keys ["level".toList] hkeys (by decide)
  obtain ⟨y, rfl⟩ : ∃ y, init = [y] := by
    rw [hfirst, List.length_cons] at hlength
    exact List.length_eq_one_iff.mp (Nat.succ.inj hlength)
  have hmem : y ∈ (symbols (level ++ '"' :: " confidence=".toList)).splitOn (.plain '"') := by
    rw [hlast]
    exact List.mem_cons_self
  have hy : .plain '"' ∉ y := not_mem_of_mem_splitOn hmem
  rw [← hconfidenceText, List.flatMap_singleton, List.append_assoc,
    List.singleton_append] at hlevelText
  refine ⟨quotable_of_level hlevelText hy, ?_⟩
  match rest, hlastKey with
  | [(key, u)], hlastKey =>
    obtain ⟨w, tail, hpieces, -, -, hnil⟩ := readParams_cons.mp hrest
    rw [readParams_nil.mp hnil] at hpieces
    exact quotable_of_mitre (List.cons.inj hpieces).2

/-- Between quotes the values are read with the keys that are written. -/
theorem readParams_of_quotable (score confidence : Rounded) (hlevel : Quotable level)
    (hmitre : Quotable mitre) :
    readParams (paramName "score".toList :: score.text.toList.map .plain ::
      laterPieces level mitre confidence) = some [("score".toList, score.text.toList),
        ("level".toList, unquote (symbols level)),
        ("confidence".toList, confidence.text.toList),
        ("mitre".toList, unquote (symbols mitre))] := by
  have hlevelPieces : (symbols (level ++ '"' :: " confidence=".toList)).splitOn (.plain '"') =
      [symbols level, paramName "confidence".toList] := by
    rw [symbols_append hlevel.1, symbols_cons (by decide),
      List.splitOn_append_cons_self_of_not_mem hlevel.2]
    rfl
  have hmitrePieces : (symbols (mitre ++ ['"'])).splitOn (.plain '"') = [symbols mitre, []] := by
    rw [symbols_append hmitre.1, symbols_cons (by decide),
      List.splitOn_append_cons_self_of_not_mem hmitre.2]
    rfl
  have hnumber (r : Rounded) : unquote (r.text.toList.map .plain) = r.text.toList := by
    simp [unquote, List.flatMap_map]
  have hname {key : String} (hkey : key ∈ syslogKeys) : IsName key.toList := by
    simp only [syslogKeys, List.mem_cons, List.not_mem_nil, or_false] at hkey
    rcases hkey with rfl | rfl | rfl | rfl <;> simp [IsName]
  rw [laterPieces, hlevelPieces, hmitrePieces]
  refine readParams_cons.mpr ⟨_, _, rfl, hname (by decide), hnumber score, ?_⟩
  refine readParams_cons.mpr ⟨_, _, rfl, hname (by decide), rfl, ?_⟩
  refine readParams_cons.mpr ⟨_, _, rfl, hname (by decide), hnumber confidence, ?_⟩
  exact readParams_cons.mpr ⟨_, _, rfl, hname (by decide), rfl, readParams_nil.mpr rfl⟩

theorem readElement_of_quotable (score confidence : Rounded) (hlevel : Quotable level)
    (hmitre : Quotable mitre) :
    ∃ params, readElement (symbols ("wardex@48710".toList ++ writtenParams score.text.toList level
      confidence.text.toList mitre)) = some params ∧ keysOf params = syslogKeys := by
  have hnameBlank : ∀ t ∈ "wardex@48710".toList.map Symbol.plain,
      decide (t ≠ Symbol.plain ' ') = true := by decide
  have hname : readName ("wardex@48710".toList.map .plain) = some "wardex@48710".toList := by
    rw [readName_eq_some]
    exact ⟨rfl, by simp [IsName]⟩
  have hfirst : symbols ("wardex@48710".toList ++ " score=".toList) =
      "wardex@48710".toList.map .plain ++ paramName "score".toList := rfl
  refine ⟨_, Eq.trans ?_ (readParams_of_quotable score confidence hlevel hmitre), rfl⟩
  rw [symbols_writtenParams _ (notMem_text score (by decide))
    (notMem_text confidence (by decide)), hfirst, List.append_assoc, readElement,
    List.takeWhile_append_of_pos hnameBlank, List.dropWhile_append_of_pos hnameBlank]
  -- behind the name comes the blank of the first key
  rw [paramName, List.cons_append, List.map_cons, List.cons_append, List.takeWhile_cons_of_neg
    (by decide), List.dropWhile_cons_of_neg (by decide), List.append_nil, hname,
    ← List.cons_append, ← List.map_cons, ← List.cons_append, ← paramName,
    List.splitOn_append_cons_self_of_not_mem (by decide),
    List.splitOn_append_cons_self_of_not_mem (plain_notMem_text score (by decide)),
    List.splitOn_append_cons_self_of_not_mem (by decide), List.splitOn_append_cons_self,
    List.splitOn_append_cons_self_of_not_mem (plain_notMem_text confidence (by decide)),
    List.splitOn_append_cons_self_of_not_mem (by decide)]
  rfl

/-- The element has no closing bracket that is not escaped if and only if the level and the
techniques have none. -/
theorem bracket_notMem_element (score confidence : Rounded) (hlevel : Quotable level)
    (hmitre : Quotable mitre) :
    .plain ']' ∉ symbols ("wardex@48710".toList ++ writtenParams score.text.toList level
        confidence.text.toList mitre) ↔
      .plain ']' ∉ symbols level ∧ .plain ']' ∉ symbols mitre := by
  have hfirst : symbols ("wardex@48710".toList ++ " score=".toList) =
      "wardex@48710".toList.map .plain ++ paramName "score".toList := rfl
  have hconfidence : symbols ('"' :: " confidence=".toList) =
      .plain '"' :: paramName "confidence".toList := rfl
  have hquote : symbols ['"'] = [.plain '"'] := rfl
  have hnumber (r : Rounded) : .plain ']' ∉ r.text.toList.map Symbol.plain :=
    plain_notMem_text r (by decide)
  have helementName : .plain ']' ∉ "wardex@48710".toList.map Symbol.plain := by decide
  have hscoreName : .plain ']' ∉ paramName "score".toList := by decide
  have hlevelName : .plain ']' ∉ paramName "level".toList := by decide
  have hconfidenceName : .plain ']' ∉ paramName "confidence".toList := by decide
  have hmitreName : .plain ']' ∉ paramName "mitre".toList := by decide
  have hne : Symbol.plain ']' ≠ Symbol.plain '"' := by decide
  rw [symbols_writtenParams _ (notMem_text score (by decide))
    (notMem_text confidence (by decide)), hfirst, symbols_append hlevel.1, hconfidence,
    symbols_append hmitre.1, hquote]
  simp only [List.mem_append, List.mem_cons, List.not_mem_nil, helementName, hscoreName,
    hlevelName, hconfidenceName, hmitreName, hnumber, hne, false_or, or_false, not_or]

/-! ### The structured data -/

theorem takeFields_one_eq_some {α : Type*} [DecidableEq α] {sep : α} {l rest : List α}
    {fields : List (List α)} :
    takeFields sep 1 l = some (fields, rest) ↔
      ∃ f, fields = [f] ∧ sep ∉ f ∧ l = f ++ sep :: rest := by
  rw [takeFields_eq_some]
  constructor
  · rintro ⟨hlength, hfields, rfl⟩
    obtain ⟨f, rfl⟩ := List.length_eq_one_iff.mp hlength
    exact ⟨f, rfl, hfields f List.mem_cons_self, by simp⟩
  · rintro ⟨f, rfl, hf, rfl⟩
    refine ⟨rfl, ?_, by simp⟩
    intro g hg
    rw [List.mem_singleton.mp hg]
    exact hf

/-- An element that is followed by the message is read with this message if and only if it has no
closing bracket that is not escaped and can be read. -/
theorem readStructuredData_eq_some {body message : List Char}
    {params : List (List Char × List Char)} (hbody : .dangling ∉ symbols body) :
    readStructuredData ('[' :: (body ++ ']' :: ' ' :: message)) = some (params, message) ↔
      .plain ']' ∉ symbols body ∧ readElement (symbols body) = some params := by
  have hsymbols : symbols (body ++ ']' :: ' ' :: message) =
      symbols body ++ .plain ']' :: symbols (' ' :: message) := by
    rw [symbols_append hbody, symbols_cons (by decide)]
  simp only [readStructuredData, Option.bind_eq_bind, Option.bind_eq_some_iff, Prod.exists,
    takeFields_one_eq_some]
  constructor
  · rintro ⟨_, rest, ⟨element, rfl, helement, hcut⟩, params', hparams, hmessage⟩
    rw [List.flatten_singleton] at hparams
    have hsource : body ++ ']' :: ' ' :: message = sourceOf element ++ ']' :: sourceOf rest := by
      rw [← sourceOf_symbols (body ++ ']' :: ' ' :: message), hcut, sourceOf_append, sourceOf_cons]
      rfl
    have hbodyEq : sourceOf element = body ∧ params' = params := by
      split at hmessage
      · next hrest =>
        -- the text ends with a blank and the message, not with the bracket
        obtain ⟨rfl, rfl⟩ := Prod.mk.inj (Option.some.inj hmessage)
        rw [hrest] at hsource
        have hlast := congrArg List.getLast? hsource
        rw [List.getLast?_concat, ← List.singleton_append, ← List.singleton_append,
          ← List.append_assoc, List.getLast?_concat] at hlast
        exact absurd hlast (by decide)
      · next message' hrest =>
        obtain ⟨rfl, rfl⟩ := Prod.mk.inj (Option.some.inj hmessage)
        rw [hrest] at hsource
        exact ⟨(List.append_cancel_right hsource).symm, rfl⟩
      · exact absurd hmessage (by simp)
    obtain ⟨hbodyEq, rfl⟩ := hbodyEq
    rw [hsymbols] at hcut
    obtain rfl : element = symbols body :=
      eq_of_sourceOf_eq hcut.symm (by rw [hbodyEq, sourceOf_symbols])
    exact ⟨helement, hparams⟩
  · rintro ⟨hbracket, hparams⟩
    refine ⟨_, _, ⟨_, rfl, hbracket, hsymbols⟩, params, ?_, ?_⟩
    · rw [List.flatten_singleton]
      exact hparams
    · rw [sourceOf_symbols]
      rfl

/-! ### The line -/

/-- The header fields as they are written. -/
def syslogHeader (a : AlertRecord) : List (List Char) :=
  ["<".toList ++ (toString (syslogPri a.level)).toList ++ ">1".toList, a.timestamp.toList,
    a.hostname.toList, "Wardex".toList, "-".toList, a.action.toList]

/-- What stands between the brackets. -/
def syslogElement (a : AlertRecord) : List Char :=
  "wardex@48710".toList ++ writtenParams a.score.text.toList a.level.toList
    a.confidence.text.toList a.mitreStr.toList

theorem toList_syslogLine (a : AlertRecord) :
    (syslogLine a).toList = ((syslogHeader a).flatMap fun f => f ++ [' ']) ++
      '[' :: (syslogElement a ++ ']' :: ' ' :: a.joinedReasons.toList) := by
  unfold syslogLine syslogHeader syslogElement writtenParams
  simp

theorem dangling_notMem_element (v level mitre : List Char) (score confidence : Rounded) :
    .dangling ∉ symbols (v ++ writtenParams score.text.toList level confidence.text.toList
      mitre) := by
  have hlast : ∃ init, v ++ writtenParams score.text.toList level confidence.text.toList mitre =
      init ++ ['"'] := by
    unfold writtenParams
    simp only [← List.cons_append, ← List.append_assoc]
    exact ⟨_, rfl⟩
  obtain ⟨init, hinit⟩ := hlast
  rw [hinit]
  exact dangling_notMem_concat (by decide) init

theorem syslogPri_free (level : String) : ' ' ∉ (toString (syslogPri level)).toList := by
  unfold syslogPri
  split_ifs <;> decide

/-- The header of a line is read as it was written. -/
theorem takeFields_syslogLine {a : AlertRecord} (h : ∀ f ∈ syslogHeader a, ' ' ∉ f) :
    takeFields ' ' 6 (syslogLine a).toList = some (syslogHeader a,
      '[' :: (syslogElement a ++ ']' :: ' ' :: a.joinedReasons.toList)) := by
  rw [takeFields_eq_some]
  exact ⟨rfl, h, toList_syslogLine a⟩

theorem exists_of_readStructuredData {text : List Char}
    {read : List (List Char × List Char) × List Char} (h : readStructuredData text = some read) :
    ∃ rest, text = '[' :: rest := by
  unfold readStructuredData at h
  split at h
  · exact ⟨_, rfl⟩
  · exact absurd h (by simp)

/-- Structured data with the keys that are written does not begin before the written bracket. -/
theorem not_readStructuredData_earlier {a : AlertRecord} {d : List Char}
    (h : readStructuredData (d ++ ' ' ::
      '[' :: (syslogElement a ++ ']' :: ' ' :: a.joinedReasons.toList)) =
        some (params, a.joinedReasons.toList)) : keysOf params ≠ syslogKeys := by
  intro hkeys
  obtain ⟨rest, hrest⟩ := exists_of_readStructuredData h
  cases d with
  | nil => exact absurd (List.cons.inj hrest).1 (by decide)
  | cons c d =>
    obtain ⟨rfl, -⟩ := List.cons.inj hrest
    have hassoc (name ps message : List Char) :
        '[' :: d ++ ' ' :: '[' :: ((name ++ ps) ++ message) =
          '[' :: (((d ++ ' ' :: '[' :: name) ++ ps) ++ message) := by
      simp only [List.cons_append, List.append_assoc]
    unfold syslogElement at h
    rw [hassoc, readStructuredData_eq_some (dangling_notMem_element _ _ _ _ _)] at h
    obtain ⟨hblank, -⟩ := readParams_of_readElement h.2 hkeys
    exact hblank (List.mem_append_right d List.mem_cons_self)

/-- An alert is read back from its line if and only if it is clean. -/
theorem readSyslog_syslogLine (a : AlertRecord) :
    readSyslog (syslogLine a) = some ⟨a.hostname, a.action, a.joinedReasons, syslogKeys⟩ ↔
      SyslogClean a := by
  have hdangling : .dangling ∉ symbols (syslogElement a) := dangling_notMem_element _ _ _ _ _
  constructor
  · intro h
    simp only [readSyslog, Option.bind_eq_bind, Option.bind_eq_some_iff, Option.pure_def,
      Option.some.injEq] at h
    obtain ⟨⟨fields, rest⟩, hfields, host, hhost, messageId, hmessageId, ⟨params, message⟩, hread,
      hentry⟩ := h
    obtain ⟨-, -, hmessage, hkeys⟩ := LogEntry.mk.inj hentry
    obtain rfl : message = a.joinedReasons.toList := by rw [← hmessage, String.toList_ofList]
    obtain ⟨hlength, hfree, htext⟩ := takeFields_eq_some.mp hfields
    rw [toList_syslogLine] at htext
    rcases written_or_earlier hlength hfree htext.symm with hheader | ⟨d, rfl⟩
    · rw [takeFields_syslogLine hheader] at hfields
      obtain ⟨rfl, rfl⟩ := Prod.mk.inj (Option.some.inj hfields)
      obtain ⟨hbracket, helement⟩ := (readStructuredData_eq_some hdangling).mp hread
      obtain ⟨-, rest, hrest, hrestKeys⟩ := readParams_of_readElement helement hkeys
      obtain ⟨hlevel, hmitre⟩ := quotable_of_readParams hrest hrestKeys
      obtain ⟨hlevelBracket, hmitreBracket⟩ :=
        (bracket_notMem_element a.score a.confidence hlevel hmitre).mp hbracket
      have hfield (s : String) (hs : s.toList ∈ syslogHeader a) : Free [' '] s := by
        intro c hc
        rw [List.mem_singleton.mp hc]
        exact hheader _ hs
      exact ⟨hfield _ (by simp [syslogHeader]), hfield _ (by simp [syslogHeader]),
        hfield _ (by simp [syslogHeader]), ⟨hlevel, hlevelBracket⟩, ⟨hmitre, hmitreBracket⟩⟩
    · exact absurd hkeys (not_readStructuredData_earlier hread)
  · intro h
    have hheader : ∀ f ∈ syslogHeader a, ' ' ∉ f := by
      simp only [syslogHeader, List.forall_mem_cons]
      refine ⟨?_, h.timestamp _ (by decide), h.hostname _ (by decide), by decide, by decide,
        h.action _ (by decide), fun f hf => absurd hf List.not_mem_nil⟩
      simpa using syslogPri_free a.level
    obtain ⟨params, hparams, hkeys⟩ := readElement_of_quotable a.score a.confidence
      h.level.quotable h.mitre.quotable
    have hbracket := (bracket_notMem_element a.score a.confidence h.level.quotable
      h.mitre.quotable).mpr ⟨h.level.bracket, h.mitre.bracket⟩
    have hread : readStructuredData ('[' :: (syslogElement a ++ ']' :: ' ' ::
        a.joinedReasons.toList)) = some (params, a.joinedReasons.toList) :=
      (readStructuredData_eq_some hdangling).mpr ⟨hbracket, hparams⟩
    have hhostname : String.ofList a.hostname.toList = a.hostname := String.ofList_toList
    have haction : String.ofList a.action.toList = a.action := String.ofList_toList
    have hreasons : String.ofList a.joinedReasons.toList = a.joinedReasons := String.ofList_toList
    simp only [readSyslog, takeFields_syslogLine hheader, Option.bind_eq_bind,
      Option.bind_eq_some_iff, Option.pure_def, Option.some.injEq]
    refine ⟨_, rfl, _, rfl, _, rfl, _, hread, ?_⟩
    rw [hhostname, haction, hreasons, hkeys]

end Wardex.Siem
