import Wardex.Sigma.Reading

/-! Every document has a text: its lines written one below the other are the lines that the
reader takes from the text. -/

namespace Wardex.Sigma

open Wardex.Lib

theorem indentation_writeLine (l : Nat × List Char) (h : Bare isWhiteSpace l.2) :
    indentation (writeLine l) = l.1 := by
  have hleading : l.2.takeWhile isWhiteSpace = [] := by
    cases htext : l.2 with
    | nil => rfl
    | cons c rest =>
      rw [htext] at h
      exact List.takeWhile_cons_of_neg (by simp [h.1 c rfl])
  have hblanks : ∀ c ∈ List.replicate l.1 ' ', isWhiteSpace c = true := by
    intro c hc
    rw [List.eq_of_mem_replicate hc]
    decide
  rw [indentation, writeLine, List.takeWhile_append_of_pos hblanks, hleading, List.append_nil,
    List.map_replicate, List.sum_replicate_nat]
  exact Nat.mul_one l.1

theorem trim_writeLine (l : Nat × List Char) (h : Bare isWhiteSpace l.2) :
    trim (writeLine l) = l.2 := by
  have hblanks : ∀ n, trim (List.replicate n ' ' ++ l.2) = trim l.2 := by
    intro n
    induction n with
    | zero => rfl
    | succ n ih => exact (trimWith_cons rfl).trans ih
  rw [writeLine, hblanks]
  exact trimWith_eq_self h

theorem significant_writeLines {ls : List (Nat × List Char)} (h : ∀ l ∈ ls, IsLine l.2) :
    significant (writeLines ls).toList = ls := by
  have hblank : ∀ c ∈ ['\n', '\r'], ∀ l ∈ ls, c ∉ l.2 → c ∉ writeLine l := by
    intro c hc l _ hl hmem
    rcases List.mem_append.mp hmem with hmem | hmem
    · rw [List.eq_of_mem_replicate hmem] at hc
      revert hc
      decide
    · exact hl hmem
  have hlines : lines (ls.flatMap fun l => writeLine l ++ ['\n']) = ls.map writeLine := by
    rw [← List.flatMap_map writeLine fun t => t ++ ['\n']]
    apply lines_flatMap
    · intro t ht
      obtain ⟨l, hl, rfl⟩ := List.mem_map.mp ht
      exact hblank '\n' (by decide) l hl (h l hl).2.2.2.1
    · intro t ht
      obtain ⟨l, hl, rfl⟩ := List.mem_map.mp ht
      exact hblank '\r' (by decide) l hl (h l hl).2.2.2.2
  have hread : (ls.map writeLine).map (fun line => (indentation line, trim line)) = ls := by
    rw [List.map_map]
    refine (List.map_congr_left fun l hl => ?_).trans (List.map_id ls)
    have hbare := (h l hl).2.2.1
    exact Prod.ext (indentation_writeLine l hbare) (trim_writeLine l hbare)
  rw [significant, writeLines, String.toList_ofList, hlines, hread, List.filter_eq_self]
  intro l hl
  exact decide_eq_true ⟨(h l hl).1, (h l hl).2.1⟩

/-! ### The lines of a document -/

theorem isLine_keyLine (k : Key) (indent : Nat) {written : List Char}
    (hbare : Bare isWhiteSpace written) (hline : '\n' ∉ written ∧ '\r' ∉ written) :
    IsLine (k.line indent written).2 := by
  have hkey : k.text ≠ [] := k.plain.1.1
  have hfirst : ∀ c ∈ k.text.head?, isWhiteSpace c = false := k.plain.1.2.1
  have hnot : ∀ c, c ≠ ':' → c ≠ ' ' → c ∉ k.text → c ∉ written →
      c ∉ (k.line indent written).2 := by
    intro c hcolon hblank hk hw hmem
    rcases List.mem_append.mp hmem with hmem | hmem
    · exact hk hmem
    · split at hmem
      · exact hcolon (List.mem_singleton.mp hmem)
      · rcases List.mem_cons.mp hmem with hmem | hmem
        · exact hcolon hmem
        · rcases List.mem_cons.mp hmem with hmem | hmem
          · exact hblank hmem
          · exact hw hmem
  have hcomment : (k.line indent written).2.head? ≠ some '#' := by
    rw [k.head?_line]
    intro hmem
    exact k.plain.not_indicator hmem (by decide)
  have hedges : Bare isWhiteSpace (k.line indent written).2 := by
    unfold Key.line
    split
    · have hcolon : Bare isWhiteSpace [':'] := by decide
      exact bare_append hkey (List.cons_ne_nil _ _) hfirst hcolon.2
    · next hne =>
      have hwhole : k.text ++ ':' :: ' ' :: written = (k.text ++ [':', ' ']) ++ written := by simp
      show Bare isWhiteSpace (k.text ++ ':' :: ' ' :: written)
      rw [hwhole]
      refine bare_append (List.append_ne_nil_of_left_ne_nil hkey _) hne ?_ hbare.2
      rw [List.head?_append_of_ne_nil k.text hkey]
      exact hfirst
  exact ⟨List.ne_nil_of_mem (k.colon_mem_line indent written), hcomment, hedges,
    hnot _ (by decide) (by decide) k.oneLine.1 hline.1,
    hnot _ (by decide) (by decide) k.oneLine.2 hline.2⟩

theorem Scalar.oneLine_render (s : Scalar) : '\n' ∉ s.render ∧ '\r' ∉ s.render :=
  ⟨s.not_mem_render (by decide) s.oneLine.1, s.not_mem_render (by decide) s.oneLine.2⟩

theorem isLine_itemLine (n : Nat) (s : Scalar) : IsLine (itemLine n s).2 := by
  have hdash : Bare isWhiteSpace ['-'] := by decide
  have hedges : Bare isWhiteSpace (['-', ' '] ++ s.render) :=
    bare_append (List.cons_ne_nil _ _) s.render_ne_nil hdash.1 s.bare_render.2
  have hnot : ∀ c, c ≠ '-' → c ≠ ' ' → c ∉ s.render → c ∉ (itemLine n s).2 :=
    fun c hdash hblank hs => List.not_mem_cons_of_ne_of_not_mem hdash
      (List.not_mem_cons_of_ne_of_not_mem hblank hs)
  have hcomment : (itemLine n s).2.head? ≠ some '#' := by
    show some '-' ≠ some '#'
    decide
  exact ⟨List.cons_ne_nil _ _, hcomment, hedges,
    hnot _ (by decide) (by decide) s.oneLine_render.1,
    hnot _ (by decide) (by decide) s.oneLine_render.2⟩

theorem isLine_head (k : Key) (indent : Nat) : IsLine (k.line indent []).2 :=
  isLine_keyLine k indent (by decide) ⟨List.not_mem_nil, List.not_mem_nil⟩

theorem isLine_scalar (k : Key) (indent : Nat) (s : Scalar) : IsLine (k.line indent s.render).2 :=
  isLine_keyLine k indent s.bare_render s.oneLine_render

theorem isLine_entry {e : Entry} {l : Nat × List Char} (h : l ∈ e.lines) : IsLine l.2 := by
  obtain ⟨k, value⟩ := e
  cases value with
  | scalar s =>
    rw [List.mem_singleton.mp h]
    exact isLine_scalar k 0 s
  | list items =>
    rcases List.mem_cons.mp h with rfl | h
    · exact isLine_head k 0
    · obtain ⟨s, -, rfl⟩ := List.mem_map.mp h
      exact isLine_itemLine 4 s
  | map fields =>
    rcases List.mem_cons.mp h with rfl | h
    · exact isLine_head k 0
    · obtain ⟨p, -, rfl⟩ := List.mem_map.mp h
      exact isLine_scalar p.1 4 p.2

theorem FieldValue.oneLine_written (v : FieldValue) : '\n' ∉ v.written ∧ '\r' ∉ v.written := by
  cases v with
  | scalar s => exact s.oneLine_render
  | inline items =>
    have hnot : ∀ c ∈ ['\n', '\r'], (∀ i ∈ items, c ∉ i.scalar.render) →
        c ∉ (FieldValue.inline items).written := by
      intro c hc hi hmem
      have hbreaks : ∀ d ∈ ['\n', '\r'], d ∉ ['[', ']', ',', ' '] := by simp
      have hbrackets : c ∉ ['[', ']', ',', ' '] := hbreaks c hc
      rcases List.mem_cons.mp hmem with rfl | hmem
      · exact hbrackets (by decide)
      · rcases List.mem_append.mp hmem with hmem | hmem
        · refine not_mem_intercalate (fun hsep => hbrackets ?_) ?_ hmem
          · exact List.mem_cons_of_mem _ (List.mem_cons_of_mem _ hsep)
          · intro t ht
            obtain ⟨i, hi', rfl⟩ := List.mem_map.mp ht
            exact hi i hi'
        · rw [List.mem_singleton.mp hmem] at hbrackets
          exact hbrackets (by decide)
    exact ⟨hnot _ (by decide) fun i _ => i.scalar.oneLine_render.1,
      hnot _ (by decide) fun i _ => i.scalar.oneLine_render.2⟩
  | block first rest => exact ⟨List.not_mem_nil, List.not_mem_nil⟩

theorem isLine_selection {s : Selection} {l : Nat × List Char} (h : l ∈ s.lines) :
    IsLine l.2 := by
  rcases List.mem_cons.mp h with rfl | h
  · exact isLine_head s.key 4
  · obtain ⟨f, -, h⟩ := List.mem_flatMap.mp h
    rcases List.mem_cons.mp h with rfl | h
    · exact isLine_keyLine f.key 8 f.value.bare_written f.value.oneLine_written
    · obtain ⟨item, -, rfl⟩ := List.mem_map.mp h
      exact isLine_itemLine 12 item

namespace Document

variable (d : Document)

theorem isLine_lines : ∀ l ∈ d.lines, IsLine l.2 := by
  intro l hl
  rcases List.mem_append.mp hl with hl | hl
  · rcases List.mem_append.mp hl with hl | hl
    · obtain ⟨e, -, hl⟩ := List.mem_flatMap.mp hl
      exact isLine_entry hl
    · rcases List.mem_cons.mp hl with rfl | hl
      · exact isLine_head detectionKey 0
      · rcases List.mem_append.mp hl with hl | hl
        · obtain ⟨s, -, hl⟩ := List.mem_flatMap.mp hl
          exact isLine_selection hl
        · rcases List.mem_cons.mp hl with rfl | hl
          · rw [← d.line_condition]
            exact isLine_scalar conditionKey 4 d.condition
          · obtain ⟨s, -, hl⟩ := List.mem_flatMap.mp hl
            exact isLine_selection hl
  · obtain ⟨e, -, hl⟩ := List.mem_flatMap.mp hl
    exact isLine_entry hl

/-- A text in which the document is written. -/
def text : String := writeLines d.lines

theorem significant_text : significant d.text.toList = d.lines :=
  significant_writeLines d.isLine_lines

end Document

end Wardex.Sigma
