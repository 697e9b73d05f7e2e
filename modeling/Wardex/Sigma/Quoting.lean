import Wardex.Lib.Delimited
import Wardex.Sigma.Layout

/-! What the reader makes of a written scalar and of an inline list. -/

namespace Wardex.Sigma

open Wardex.Lib

/-! ### Quotes -/

namespace Scalar

theorem doubled_eq_self {t : List Char} (h : '\'' ∉ t) : doubled t = t := by
  induction t with
  | nil => rfl
  | cons c t ih =>
    have hc : c ≠ '\'' := (List.ne_of_not_mem_cons h).symm
    have hrest : doubled t = t := ih (List.not_mem_of_not_mem_cons h)
    rw [doubled, List.flatMap_cons, if_neg hc]
    exact congrArg (c :: ·) hrest

theorem length_doubled (t : List Char) : (doubled t).length = t.length + t.count '\'' := by
  induction t with
  | nil => rfl
  | cons c t ih =>
    rw [doubled] at ih ⊢
    rw [List.flatMap_cons, List.length_append, ih, List.count_cons]
    split
    · next h =>
      subst h
      simp
      omega
    · next h =>
      simp [h]
      omega

theorem count_doubled (t : List Char) : (doubled t).count '\'' = 2 * t.count '\'' := by
  induction t with
  | nil => rfl
  | cons c t ih =>
    rw [doubled] at ih ⊢
    rw [List.flatMap_cons, List.count_append, ih, List.count_cons]
    split
    · next h =>
      subst h
      simp
      omega
    · next h => simp [h]

theorem escaped_eq_self {t : List Char} (hquote : '"' ∉ t) (hslash : '\\' ∉ t) :
    escaped t = t := by
  induction t with
  | nil => rfl
  | cons c t ih =>
    have hc : ¬(c = '"' ∨ c = '\\') := by
      rintro (rfl | rfl)
      · exact hquote List.mem_cons_self
      · exact hslash List.mem_cons_self
    have hrest : escaped t = t :=
      ih (List.not_mem_of_not_mem_cons hquote) (List.not_mem_of_not_mem_cons hslash)
    rw [escaped, List.flatMap_cons, if_neg hc]
    exact congrArg (c :: ·) hrest

theorem length_escaped (t : List Char) :
    (escaped t).length = t.length + t.count '"' + t.count '\\' := by
  induction t with
  | nil => rfl
  | cons c t ih =>
    rw [escaped] at ih ⊢
    rw [List.flatMap_cons, List.length_append, ih, List.count_cons, List.count_cons]
    split
    · next h => rcases h with rfl | rfl <;> simp <;> omega
    · next h =>
      obtain ⟨hquote, hslash⟩ := not_or.mp h
      simp [hquote, hslash]
      omega

theorem count_escaped (t : List Char) : (escaped t).count '"' = t.count '"' := by
  induction t with
  | nil => rfl
  | cons c t ih =>
    rw [escaped] at ih ⊢
    rw [List.flatMap_cons, List.count_append, ih, List.count_cons]
    split
    · next h =>
      rcases h with rfl | rfl
      · simp
        omega
      · simp
    · simp [List.count_singleton]
      omega

theorem bare_doubled {t : List Char} (h : Bare (· == '\'') t) : Bare (· == '\'') (doubled t) := by
  constructor
  · intro c hc
    cases t with
    | nil => cases hc
    | cons d t =>
      have hd : d ≠ '\'' := by simpa using h.1 d rfl
      rw [doubled, List.flatMap_cons, if_neg hd] at hc
      cases hc
      simpa using hd
  · intro c hc
    rcases List.eq_nil_or_concat' t with rfl | ⟨t, d, rfl⟩
    · cases hc
    · have hd : d ≠ '\'' := by simpa using h.2 d List.getLast?_concat
      rw [doubled, List.flatMap_append, List.flatMap_singleton, if_neg hd,
        List.getLast?_concat] at hc
      cases hc
      simpa using hd

/-! ### Taking the quotes off -/

theorem trimMatches_single {t : List Char} :
    trimMatches '"' (trimMatches '\'' ('\'' :: (doubled t ++ ['\'']))) = t ↔
      '\'' ∉ t ∧ Bare (· == '"') t := by
  constructor
  · intro h
    obtain ⟨a, b, houter⟩ := exists_replicate_trimMatches '\'' ('\'' :: (doubled t ++ ['\'']))
    obtain ⟨c, d, hinner⟩ :=
      exists_replicate_trimMatches '"' (trimMatches '\'' ('\'' :: (doubled t ++ ['\''])))
    rw [h] at hinner
    have hlength := congrArg List.length houter
    have hcount := congrArg (List.count '\'') houter
    rw [hinner] at hlength hcount
    simp only [List.length_cons, List.length_append, List.length_replicate, List.length_nil,
      length_doubled] at hlength
    simp [List.count_replicate, count_doubled] at hcount
    have hc : c = 0 := by omega
    have hd : d = 0 := by omega
    subst hc hd
    have hself : trimMatches '\'' ('\'' :: (doubled t ++ ['\''])) = t := by simpa using hinner
    have hsingle : Bare (· == '\'') t := hself ▸ bare_trimWith (· == '\'') _
    have hdouble : Bare (· == '"') t := h ▸ bare_trimWith (· == '"') _
    have hdoubled : doubled t = t := (trimMatches_wrap (bare_doubled hsingle)).symm.trans hself
    have hnone : t.length + t.count '\'' = t.length := by rw [← length_doubled, hdoubled]
    exact ⟨List.count_eq_zero.mp (by omega), hdouble⟩
  · rintro ⟨hsingle, hdouble⟩
    rw [doubled_eq_self hsingle, trimMatches_wrap (bare_of_not_mem hsingle),
      trimMatches_eq_self hdouble]

/-- Every quote or backslash of the text stands in the written scalar with a backslash before it,
so what is left has the length of the text only if there is none. -/
theorem trimMatches_double {t : List Char} :
    trimMatches '"' (trimMatches '\'' ('"' :: (escaped t ++ ['"']))) = t ↔
      '"' ∉ t ∧ '\\' ∉ t := by
  have hsingle : trimMatches '\'' ('"' :: (escaped t ++ ['"'])) = '"' :: (escaped t ++ ['"']) :=
    trimMatches_eq_self (bare_wrap rfl rfl _)
  rw [hsingle]
  constructor
  · intro h
    obtain ⟨a, b, heq⟩ := exists_replicate_trimMatches '"' ('"' :: (escaped t ++ ['"']))
    rw [h] at heq
    have hlength := congrArg List.length heq
    have hcount := congrArg (List.count '"') heq
    simp only [List.length_cons, List.length_append, List.length_replicate, List.length_nil,
      length_escaped] at hlength
    simp only [List.count_cons_self, List.count_append, List.count_replicate_self,
      List.count_nil, count_escaped] at hcount
    exact ⟨List.count_eq_zero.mp (by omega), List.count_eq_zero.mp (by omega)⟩
  · rintro ⟨hquote, hslash⟩
    rw [escaped_eq_self hquote hslash, trimMatches_wrap (bare_of_not_mem hquote)]

theorem trimMatches_plain {t : List Char} (h : PlainText t) :
    trimMatches '"' (trimMatches '\'' t) = t ↔
      t.getLast? ≠ some '\'' ∧ t.getLast? ≠ some '"' := by
  constructor
  · intro heq
    have hsub : trimMatches '"' (trimMatches '\'' t) <:+: trimMatches '\'' t := trimWith_isInfix _ _
    rw [heq] at hsub
    have hself : trimMatches '\'' t = t := (trimWith_isInfix _ _).eq_of_length_le hsub.length_le
    rw [hself] at heq
    have hsingle := bare_trimWith (· == '\'') t
    have hdouble := bare_trimWith (· == '"') t
    rw [← trimMatches, hself] at hsingle
    rw [← trimMatches, heq] at hdouble
    exact ⟨fun hlast => by simpa using hsingle.2 _ hlast,
      fun hlast => by simpa using hdouble.2 _ hlast⟩
  · rintro ⟨hsingle, hdouble⟩
    have hedge : ∀ q ∈ indicators, t.getLast? ≠ some q → Bare (· == q) t := by
      intro q hq hlast
      refine ⟨fun c hc => beq_false_of_ne ?_, fun c hc => beq_false_of_ne ?_⟩
      · rintro rfl
        exact h.not_indicator hc hq
      · rintro rfl
        exact hlast hc
    rw [trimMatches_eq_self (hedge '\'' (by decide) hsingle),
      trimMatches_eq_self (hedge '"' (by decide) hdouble)]

variable (s : Scalar)

theorem render_ne_nil : s.render ≠ [] := by
  unfold render
  split
  · next h => exact (s.plain h).1.1
  · exact List.cons_ne_nil _ _
  · exact List.cons_ne_nil _ _

theorem bare_render : Bare isWhiteSpace s.render := by
  unfold render
  split
  · next h => exact (s.plain h).1.2
  · exact bare_wrap rfl rfl _
  · exact bare_wrap rfl rfl _

theorem trim_render : trim s.render = s.render := trimWith_eq_self s.bare_render

theorem stripQuotes_render_iff : stripQuotes s.render = s.text ↔ s.Unquotable := by
  rw [stripQuotes, trim_render]
  unfold render Unquotable
  split
  · next h => exact trimMatches_plain (s.plain h)
  · exact trimMatches_single
  · exact trimMatches_double

end Scalar

/-! ### Values -/

/-- The value that a matcher gets from a scalar without its quotes. -/
def printed (t : List Char) : String :=
  match parseSigned 64 t with
  | some n => toString n
  | none => String.ofList t

theorem fieldValues_scalarValue (t : List Char) : fieldValues (scalarValue t) = [printed t] := by
  unfold scalarValue
  split
  · next h =>
    subst h
    decide
  · split
    · next h =>
      subst h
      decide
    · unfold printed
      cases parseSigned 64 t <;> rfl

theorem itemText_scalarValue (t : List Char) : itemText (scalarValue t) =
    if t = "true".toList ∨ t = "false".toList then none else some (printed t) := by
  unfold scalarValue printed
  by_cases htrue : t = "true".toList
  · rw [if_pos htrue, if_pos (Or.inl htrue)]
    rfl
  · by_cases hfalse : t = "false".toList
    · rw [if_neg htrue, if_pos hfalse, if_pos (Or.inr hfalse)]
      rfl
    · rw [if_neg htrue, if_neg hfalse, if_neg (not_or.mpr ⟨htrue, hfalse⟩)]
      cases parseSigned 64 t <;> rfl

theorem mem_toString {n : Int} {c : Char} (h : c ∈ (toString n).toList) :
    c.isDigit = true ∨ c = '-' := by
  have hrepr : ∀ m : Nat, c ∈ m.repr.toList → c.isDigit = true := by
    intro m hm
    rw [Nat.toList_repr] at hm
    exact Nat.isDigit_of_mem_toDigits (by decide) (by decide) hm
  rw [Int.toString_eq_repr, Int.repr_eq_if] at h
  split at h
  · exact Or.inl (hrepr _ h)
  · rw [String.toList_append, List.mem_append] at h
    rcases h with h | h
    · exact Or.inr (by simpa using h)
    · exact Or.inl (hrepr _ h)

theorem not_mem_toString (n : Int) {c : Char} (hc : c ∈ ['\'', '"', '\\', ',']) :
    c ∉ (toString n).toList := by
  intro h
  rcases mem_toString h with h | rfl
  · have hdigit : ∀ q ∈ ['\'', '"', '\\', ','], q.isDigit = false := by simp [Char.isDigit]
    rw [hdigit c hc] at h
    cases h
  · revert hc
    decide

namespace Scalar

variable (s : Scalar)

theorem unquotable_of_not_mem (h : ∀ q ∈ ['\'', '"', '\\'], q ∉ s.text) : s.Unquotable := by
  have hsingle : '\'' ∉ s.text := h _ (by decide)
  have hdouble : '"' ∉ s.text := h _ (by decide)
  unfold Unquotable
  split
  · exact ⟨fun hlast => hsingle (List.mem_of_getLast? hlast),
      fun hlast => hdouble (List.mem_of_getLast? hlast)⟩
  · exact ⟨hsingle, bare_of_not_mem hdouble⟩
  · exact ⟨hdouble, h _ (by decide)⟩

theorem printed_iff :
    printed (stripQuotes s.render) = String.ofList s.text ↔ s.Unquotable ∧ Canonical s.text := by
  constructor
  · intro h
    cases hn : parseSigned 64 (stripQuotes s.render) with
    | none =>
      rw [printed, hn] at h
      have hstrip : stripQuotes s.render = s.text := String.ofList_injective h
      rw [hstrip] at hn
      exact ⟨s.stripQuotes_render_iff.mp hstrip, fun n h => by rw [hn] at h; cases h⟩
    | some n =>
      rw [printed, hn] at h
      have htext : s.text = (toString n).toList := by
        rw [← String.toList_ofList (l := s.text), ← h]
      have hunquotable : s.Unquotable := s.unquotable_of_not_mem fun q hq => by
        rw [htext]
        exact not_mem_toString n (List.mem_append_left [','] hq)
      rw [s.stripQuotes_render_iff.mpr hunquotable] at hn
      refine ⟨hunquotable, fun m hm => ?_⟩
      obtain rfl : n = m := Option.some.inj (hn.symm.trans hm)
      exact h
  · rintro ⟨hunquotable, hcanonical⟩
    rw [s.stripQuotes_render_iff.mpr hunquotable]
    unfold printed
    split
    · next n hn => exact hcanonical n hn
    · rfl

theorem itemText_iff :
    itemText (parseYamlScalar s.render) = some (String.ofList s.text) ↔
      s.Unquotable ∧ Canonical s.text ∧ s.text ≠ "true".toList ∧ s.text ≠ "false".toList := by
  rw [parseYamlScalar, itemText_scalarValue]
  constructor
  · intro h
    split at h
    · cases h
    · next hbool =>
      obtain ⟨hunquotable, hcanonical⟩ := s.printed_iff.mp (Option.some.inj h)
      rw [s.stripQuotes_render_iff.mpr hunquotable] at hbool
      exact ⟨hunquotable, hcanonical, not_or.mp hbool⟩
  · rintro ⟨hunquotable, hcanonical, hbool⟩
    rw [s.printed_iff.mpr ⟨hunquotable, hcanonical⟩, s.stripQuotes_render_iff.mpr hunquotable,
      if_neg (not_or.mpr hbool)]

/-- A written scalar is never taken for an inline list. -/
theorem parseYamlValue_render : parseYamlValue s.render = parseYamlScalar s.render := by
  have hhead : s.render.head? ≠ some '[' := by
    unfold render
    split
    · next h =>
      intro hfirst
      exact (s.plain h).not_indicator hfirst (by decide)
    · exact fun h => by cases h
    · exact fun h => by cases h
  rw [parseYamlValue, s.trim_render]
  exact if_neg fun h => hhead h.1

theorem not_mem_render {c : Char} (hc : c ∉ ['\'', '"', '\\']) (h : c ∉ s.text) :
    c ∉ s.render := by
  have hne : ∀ q ∈ ['\'', '"', '\\'], c ≠ q := fun q hq heq => hc (heq ▸ hq)
  have hsingle : c ≠ '\'' := hne _ (by decide)
  have hdouble : c ≠ '"' := hne _ (by decide)
  have hslash : c ≠ '\\' := hne _ (by decide)
  have hdoubled : c ∉ doubled s.text := by
    intro hmem
    obtain ⟨d, hd, hcd⟩ := List.mem_flatMap.mp hmem
    have hitself : c = d := by
      split at hcd
      · simpa using hcd
      · simpa using hcd
    exact h (hitself ▸ hd)
  have hescaped : c ∉ escaped s.text := by
    intro hmem
    obtain ⟨d, hd, hcd⟩ := List.mem_flatMap.mp hmem
    have hitself : c = d := by
      split at hcd
      · simpa [hslash] using hcd
      · simpa using hcd
    exact h (hitself ▸ hd)
  unfold render
  split
  · exact h
  · simpa [hsingle] using hdoubled
  · simpa [hdouble] using hescaped

end Scalar

/-! ### Inline lists -/

theorem comma_not_mem_value {piece : List Char} {v : String} (h : ',' ∉ piece)
    (hv : itemText (parseYamlScalar (trim piece)) = some v) : ',' ∉ v.toList := by
  have hstrip : stripQuotes (trim piece) <:+: piece :=
    (((trimWith_isInfix _ _).trans (trimWith_isInfix _ _)).trans (trimWith_isInfix _ _)).trans
      (trimWith_isInfix _ _)
  rw [parseYamlScalar, itemText_scalarValue] at hv
  split at hv
  · cases hv
  · obtain rfl := Option.some.inj hv
    unfold printed
    split
    · exact not_mem_toString _ (by decide)
    · rw [String.toList_ofList]
      exact fun hmem => h (hstrip.subset hmem)

namespace FieldValue

theorem fieldValues_inline (items : List InlineItem) :
    fieldValues (parseYamlValue (inline items).written) =
      (([',', ' '].intercalate (items.map fun i => i.scalar.render)).splitOn ',').filterMap
        fun piece => itemText (parseYamlScalar (trim piece)) := by
  generalize hinner : [',', ' '].intercalate (items.map fun i => i.scalar.render) = inner
  have htrim : trim ('[' :: (inner ++ [']'])) = '[' :: (inner ++ [']']) :=
    trimWith_eq_self (bare_wrap rfl rfl _)
  have hlast : ('[' :: (inner ++ [']'])).getLast? = some ']' := by
    rw [← List.cons_append, List.getLast?_concat]
  rw [written, hinner, parseYamlValue, htrim, if_pos ⟨rfl, hlast⟩, List.tail_cons,
    List.dropLast_concat, fieldValues, List.filterMap_map, Function.comp_def]

/-- Items without a comma are the pieces between the commas. -/
theorem fieldValues_inline_of_not_mem {items : List InlineItem} (hne : items ≠ [])
    (h : ∀ i ∈ items, ',' ∉ i.scalar.text) :
    fieldValues (parseYamlValue (inline items).written) =
      items.filterMap fun i => itemText (parseYamlScalar i.scalar.render) := by
  have hrenders : items.map (fun i => i.scalar.render) ≠ [] :=
    fun hnil => hne (List.map_eq_nil_iff.mp hnil)
  have hcomma : ∀ t ∈ items.map (fun i => i.scalar.render), ',' ∉ t := by
    intro t ht
    obtain ⟨i, hi, rfl⟩ := List.mem_map.mp ht
    exact i.scalar.not_mem_render (by decide) (h i hi)
  have hbare : ∀ t ∈ items.map (fun i => i.scalar.render), Bare isWhiteSpace t := by
    intro t ht
    obtain ⟨i, -, rfl⟩ := List.mem_map.mp ht
    exact i.scalar.bare_render
  have hpieces := map_trim_splitOn hrenders hcomma hbare (by decide)
  have hmap := congrArg (List.filterMap fun t => itemText (parseYamlScalar t)) hpieces
  rw [List.filterMap_map, List.filterMap_map] at hmap
  simp only [Function.comp_def] at hmap
  rw [fieldValues_inline, hmap]

/-- No piece between two commas has a comma, so a text with one is not among the values. -/
theorem comma_not_mem_of_values {items : List InlineItem}
    (h : fieldValues (parseYamlValue (inline items).written) = (inline items).texts)
    {i : InlineItem} (hi : i ∈ items) : ',' ∉ i.scalar.text := by
  have hmem : String.ofList i.scalar.text ∈
      fieldValues (parseYamlValue (inline items).written) := by
    rw [h]
    exact List.mem_map_of_mem hi
  rw [fieldValues_inline] at hmem
  obtain ⟨piece, hpiece, hvalue⟩ := List.mem_filterMap.mp hmem
  have hcomma := comma_not_mem_value (not_mem_of_mem_splitOn hpiece) hvalue
  rwa [String.toList_ofList] at hcomma

theorem inline_iff (items : List InlineItem) :
    fieldValues (parseYamlValue (inline items).written) = (inline items).texts ↔
      (inline items).Faithful := by
  constructor
  · intro h
    have hne : items ≠ [] := by
      rintro rfl
      revert h
      decide
    refine ⟨hne, fun i hi => ?_⟩
    have hcomma : ∀ j ∈ items, ',' ∉ j.scalar.text := fun j hj => comma_not_mem_of_values h hj
    rw [fieldValues_inline_of_not_mem hne hcomma, texts,
      List.filterMap_eq_map_iff_forall_eq_some] at h
    obtain ⟨hunquotable, hcanonical, hbool⟩ := i.scalar.itemText_iff.mp (h i hi)
    exact ⟨hunquotable, hcanonical, hcomma i hi, hbool⟩
  · rintro ⟨hne, hitems⟩
    rw [fieldValues_inline_of_not_mem hne fun i hi => (hitems i hi).2.2.1, texts,
      List.filterMap_eq_map_iff_forall_eq_some]
    intro i hi
    obtain ⟨hunquotable, hcanonical, -, hbool⟩ := hitems i hi
    exact i.scalar.itemText_iff.mpr ⟨hunquotable, hcanonical, hbool⟩

/-- Which values on the line of their key are read as they are written. -/
theorem faithful_iff {v : FieldValue} (h : ¬v.IsBlock) :
    fieldValues (parseYamlValue v.written) = v.texts ↔ v.Faithful := by
  cases v with
  | scalar s =>
    rw [written, s.parseYamlValue_render, parseYamlScalar, fieldValues_scalarValue, texts,
      List.singleton_inj]
    exact s.printed_iff
  | inline items => exact inline_iff items
  | block first rest => exact absurd trivial h

end FieldValue

end Wardex.Sigma
