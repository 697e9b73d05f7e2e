import Mathlib.Data.List.Basic
import Mathlib.Data.List.Count

/-! Text with backslash escapes. The text is read as symbols: a backslash and the character after it
are one symbol, so that an escaped separator does not separate. -/

namespace Wardex.Lib

/-- A symbol of a text with escapes; a backslash at the end escapes nothing. -/
inductive Symbol where
  | plain (c : Char)
  | escaped (c : Char)
  | dangling
deriving DecidableEq

def Symbol.source : Symbol → List Char
  | .plain c => [c]
  | .escaped c => ['\\', c]
  | .dangling => ['\\']

def symbols : List Char → List Symbol
  | [] => []
  | [c] => if c = '\\' then [.dangling] else [.plain c]
  | c :: d :: rest =>
    if c = '\\' then .escaped d :: symbols rest else .plain c :: symbols (d :: rest)

/-- The text of which these are the symbols. -/
def sourceOf (ts : List Symbol) : List Char := ts.flatMap Symbol.source

variable {x y : List Char} {ts us vs ws : List Symbol} {c : Char}

@[simp] theorem symbols_nil : symbols [] = [] := rfl

theorem symbols_dangling : symbols ['\\'] = [.dangling] := rfl

theorem symbols_cons (hc : c ≠ '\\') (x : List Char) :
    symbols (c :: x) = .plain c :: symbols x := by
  cases x with
  | nil => exact if_neg hc
  | cons d x => exact if_neg hc

theorem symbols_escape (c : Char) (x : List Char) :
    symbols ('\\' :: c :: x) = .escaped c :: symbols x := if_pos rfl

/-- Induction along the symbols of a text. -/
@[elab_as_elim]
theorem symbols_induction {P : List Char → Prop} (x : List Char) (nil : P [])
    (dangling : P ['\\']) (escaped : ∀ c x, P x → P ('\\' :: c :: x))
    (plain : ∀ c x, c ≠ '\\' → P x → P (c :: x)) : P x := by
  induction x using symbols.induct with
  | case1 => exact nil
  | case2 => exact dangling
  | case3 c hc => exact plain c [] hc nil
  | case4 c rest ih => exact escaped c rest ih
  | case5 c d rest hc ih => exact plain c (d :: rest) hc ih

@[simp] theorem sourceOf_append (ts us : List Symbol) :
    sourceOf (ts ++ us) = sourceOf ts ++ sourceOf us := List.flatMap_append

theorem sourceOf_cons (t : Symbol) (ts : List Symbol) :
    sourceOf (t :: ts) = t.source ++ sourceOf ts := rfl

theorem length_le_length_sourceOf (ts : List Symbol) : ts.length ≤ (sourceOf ts).length := by
  induction ts with
  | nil => exact Nat.le_refl _
  | cons t ts ih =>
    rw [sourceOf_cons, List.length_append, List.length_cons]
    cases t <;> simp only [Symbol.source, List.length_cons, List.length_nil] <;> omega

theorem sourceOf_symbols (x : List Char) : sourceOf (symbols x) = x := by
  induction x using symbols_induction with
  | nil => rfl
  | dangling => rfl
  | escaped c x ih =>
    rw [symbols_escape, sourceOf_cons, ih]
    rfl
  | plain c x hc ih =>
    rw [symbols_cons hc, sourceOf_cons, ih]
    rfl

theorem symbols_map_plain (h : '\\' ∉ x) : symbols x = x.map .plain := by
  induction x with
  | nil => rfl
  | cons c x ih =>
    rw [symbols_cons (List.ne_of_not_mem_cons h).symm, ih (List.not_mem_of_not_mem_cons h),
      List.map_cons]

/-- The symbols of a text that does not end within an escape do not depend on what follows. -/
theorem symbols_append (h : .dangling ∉ symbols x) (y : List Char) :
    symbols (x ++ y) = symbols x ++ symbols y := by
  induction x using symbols_induction with
  | nil => rfl
  | dangling => exact absurd List.mem_cons_self h
  | escaped c x ih =>
    rw [symbols_escape] at h ⊢
    rw [List.cons_append, List.cons_append, symbols_escape, ih (List.not_mem_of_not_mem_cons h)]
    rfl
  | plain c x hc ih =>
    rw [symbols_cons hc] at h ⊢
    rw [List.cons_append, symbols_cons hc, ih (List.not_mem_of_not_mem_cons h)]
    rfl

/-- After a text that ends within an escape, the next character is the escaped one. -/
theorem symbols_append_of_dangling (h : .dangling ∈ symbols x) (c : Char) (y : List Char) :
    ∃ init, symbols x = init ++ [.dangling] ∧
      symbols (x ++ c :: y) = init ++ .escaped c :: symbols y := by
  induction x using symbols_induction with
  | nil => exact absurd h List.not_mem_nil
  | dangling => exact ⟨[], rfl, symbols_escape c y⟩
  | escaped d x ih =>
    rw [symbols_escape] at h
    obtain ⟨init, hinit, happend⟩ := ih (by simpa using h)
    refine ⟨.escaped d :: init, ?_, ?_⟩
    · rw [symbols_escape, hinit, List.cons_append]
    · rw [List.cons_append, List.cons_append, symbols_escape, happend, List.cons_append]
  | plain d x hd ih =>
    rw [symbols_cons hd] at h
    obtain ⟨init, hinit, happend⟩ := ih (by simpa using h)
    refine ⟨.plain d :: init, ?_, ?_⟩
    · rw [symbols_cons hd, hinit, List.cons_append]
    · rw [List.cons_append, symbols_cons hd, happend, List.cons_append]

/-- A text that ends with another character than a backslash does not end within an escape. -/
theorem dangling_notMem_concat (hc : c ≠ '\\') (x : List Char) :
    .dangling ∉ symbols (x ++ [c]) := by
  intro h
  by_cases hx : Symbol.dangling ∈ symbols x
  · obtain ⟨init, hinit, happend⟩ := symbols_append_of_dangling hx c []
    obtain ⟨init', hinit', -⟩ := symbols_append_of_dangling h c []
    rw [happend] at hinit'
    have hlast := (List.append_inj_right' hinit' rfl)
    exact absurd hlast (by simp)
  · rw [symbols_append hx, symbols_cons hc] at h
    simp [hx] at h

/-- Symbols with one source are the same. -/
theorem eq_of_sourceOf_eq (h : ts ++ us = vs ++ ws) (hsource : sourceOf ts = sourceOf vs) :
    ts = vs := by
  have hpos (a : Symbol) (as : List Symbol) : sourceOf (a :: as) ≠ [] := by
    cases a <;> simp [sourceOf_cons, Symbol.source]
  induction ts generalizing vs with
  | nil =>
    cases vs with
    | nil => rfl
    | cons v vs => exact absurd hsource.symm (hpos v vs)
  | cons t ts ih =>
    cases vs with
    | nil => exact absurd hsource (hpos t ts)
    | cons v vs =>
      obtain ⟨rfl, hrest⟩ := List.cons.inj h
      rw [sourceOf_cons, sourceOf_cons] at hsource
      rw [ih hrest (List.append_cancel_left hsource)]

theorem symbols_plain_append (h : '\\' ∉ x) (y : List Char) :
    symbols (x ++ y) = x.map .plain ++ symbols y := by
  have hx := symbols_map_plain h
  rw [symbols_append (by simp [hx]), hx]

/-- A text can be cut behind a character that is no backslash. -/
theorem symbols_append_cons (hc : c ≠ '\\') (x y : List Char) :
    symbols (x ++ c :: y) = symbols (x ++ [c]) ++ symbols y := by
  rw [← symbols_append (dangling_notMem_concat hc x), List.append_assoc, List.singleton_append]

theorem symbols_concat (h : .dangling ∉ symbols x) (hc : c ≠ '\\') :
    symbols (x ++ [c]) = symbols x ++ [.plain c] := by
  rw [symbols_append h, symbols_cons hc]
  rfl

/-- A character that stands for itself behind a text shows that no escape was left open. -/
theorem symbols_concat_eq (hc : c ≠ '\\') :
    symbols (x ++ [c]) = ts ++ [.plain c] ↔ .dangling ∉ symbols x ∧ ts = symbols x := by
  constructor
  · intro h
    by_cases hx : Symbol.dangling ∈ symbols x
    · obtain ⟨init, -, happend⟩ := symbols_append_of_dangling hx c []
      have hlast := List.append_inj_right' (happend.symm.trans h) rfl
      exact absurd hlast (by simp)
    · rw [symbols_concat hx hc] at h
      exact ⟨hx, (List.append_cancel_right h).symm⟩
  · rintro ⟨hx, rfl⟩
    exact symbols_concat hx hc

theorem plain_mem_symbols_concat {d : Char} (hc : c ≠ '\\') (hd : d ≠ c) (x : List Char) :
    .plain d ∈ symbols (x ++ [c]) ↔ .plain d ∈ symbols x := by
  by_cases hx : Symbol.dangling ∈ symbols x
  · obtain ⟨init, hinit, happend⟩ := symbols_append_of_dangling hx c []
    rw [happend, hinit]
    simp
  · rw [symbols_concat hx hc]
    simp [hd]

/-- The first symbols of a text are those of a text. -/
theorem symbols_sourceOf (h : symbols x = ts ++ us) : symbols (sourceOf ts) = ts := by
  induction x using symbols_induction generalizing ts with
  | nil =>
    obtain ⟨rfl, -⟩ := List.nil_eq_append_iff.mp h
    rfl
  | dangling =>
    cases ts with
    | nil => rfl
    | cons t ts =>
      obtain ⟨rfl, hrest⟩ := List.cons.inj h
      obtain ⟨rfl, -⟩ := List.nil_eq_append_iff.mp hrest
      rfl
  | escaped c x ih =>
    cases ts with
    | nil => rfl
    | cons t ts =>
      rw [symbols_escape] at h
      obtain ⟨rfl, hrest⟩ := List.cons.inj h
      have hts := ih hrest
      exact (symbols_escape c _).trans (congrArg _ hts)
  | plain c x hc ih =>
    cases ts with
    | nil => rfl
    | cons t ts =>
      rw [symbols_cons hc] at h
      obtain ⟨rfl, hrest⟩ := List.cons.inj h
      have hts := ih hrest
      exact (symbols_cons hc _).trans (congrArg _ hts)

/-! ### Values -/

/-- The character that a symbol stands for; `escape` says what escapes there are. -/
def Symbol.value (escape : Char → Option Char) : Symbol → Option Char
  | .plain c => some c
  | .escaped c => escape c
  | .dangling => none

def unescape (escape : Char → Option Char) (ts : List Symbol) : Option (List Char) :=
  ts.mapM (Symbol.value escape)

variable {escape : Char → Option Char}

@[simp] theorem Symbol.value_dangling : Symbol.dangling.value escape = none := rfl

theorem unescape_cons_eq_some {t : Symbol} :
    unescape escape (t :: ts) = some x ↔
      ∃ c a, t.value escape = some c ∧ unescape escape ts = some a ∧ x = c :: a := by
  simp only [unescape, List.mapM_cons]
  cases t.value escape <;> cases List.mapM (Symbol.value escape) ts <;> simp [eq_comm]

theorem unescape_map_plain (x : List Char) : unescape escape (x.map .plain) = some x := by
  induction x with
  | nil => rfl
  | cons c x ih => exact unescape_cons_eq_some.mpr ⟨c, x, rfl, ih, rfl⟩

theorem length_of_mapM {α β : Type*} {f : α → Option β} {l : List α} {m : List β}
    (h : l.mapM f = some m) : m.length = l.length := by
  induction l generalizing m with
  | nil =>
    obtain rfl : [] = m := Option.some.inj h
    rfl
  | cons a l ih =>
    simp only [List.mapM_cons, Option.bind_eq_bind, Option.bind_eq_some_iff, Option.pure_def,
      Option.some.injEq] at h
    obtain ⟨b, -, bs, hbs, rfl⟩ := h
    rw [List.length_cons, List.length_cons, ih hbs]

theorem length_of_unescape (h : unescape escape ts = some x) :
    x.length = ts.length := length_of_mapM h

theorem dangling_notMem_of_unescape (h : (unescape escape ts).isSome) : .dangling ∉ ts := by
  intro hmem
  obtain ⟨x, hx⟩ := Option.isSome_iff_exists.mp h
  clear h
  induction ts generalizing x with
  | nil => exact absurd hmem List.not_mem_nil
  | cons t ts ih =>
    rw [unescape_cons_eq_some] at hx
    obtain ⟨c, a, hc, ha, -⟩ := hx
    rcases List.mem_cons.mp hmem with rfl | hmem
    · exact absurd hc (by simp)
    · exact ih hmem a ha

theorem length_symbols_le (x : List Char) : (symbols x).length ≤ x.length := by
  induction x using symbols_induction with
  | nil => exact Nat.le_refl _
  | dangling => exact Nat.le_refl _
  | escaped c x ih =>
    rw [symbols_escape, List.length_cons, List.length_cons, List.length_cons]
    omega
  | plain c x hc ih =>
    rw [symbols_cons hc, List.length_cons, List.length_cons]
    omega

/-- A text that stands for itself has no escapes. -/
theorem backslash_notMem_of_unescape (h : unescape escape (symbols x) = some x) : '\\' ∉ x := by
  induction x using symbols_induction with
  | nil => exact List.not_mem_nil
  | dangling =>
    rw [symbols_dangling, unescape_cons_eq_some] at h
    obtain ⟨c, a, hc, -⟩ := h
    exact absurd hc (by simp)
  | escaped c x ih =>
    rw [symbols_escape] at h
    have hlength := length_of_unescape h
    have hle := length_symbols_le x
    simp only [List.length_cons] at hlength
    omega
  | plain c x hc ih =>
    rw [symbols_cons hc, unescape_cons_eq_some] at h
    obtain ⟨d, a, -, ha, hcons⟩ := h
    obtain ⟨rfl, rfl⟩ := List.cons.inj hcons
    exact List.not_mem_cons_of_ne_of_not_mem hc.symm (ih ha)

/-- Every escape adds one character to the source, which is a backslash. -/
theorem count_backslash_sourceOf (hescape : ∀ c d, escape c = some d → (c = '\\' ↔ d = '\\'))
    (h : unescape escape ts = some x) :
    (sourceOf ts).count '\\' + x.length = x.count '\\' + (sourceOf ts).length := by
  induction ts generalizing x with
  | nil =>
    obtain rfl : [] = x := Option.some.inj h
    rfl
  | cons t ts ih =>
    rw [unescape_cons_eq_some] at h
    obtain ⟨d, a, hd, ha, rfl⟩ := h
    have hrest := ih ha
    rw [sourceOf_cons, List.count_append, List.length_append]
    cases t with
    | plain c =>
      obtain rfl : c = d := Option.some.inj hd
      simp only [Symbol.source, List.count_cons, List.count_nil, List.length_cons, List.length_nil]
      omega
    | escaped c =>
      have hiff := hescape c d hd
      simp only [Symbol.source, List.count_cons, List.count_nil, List.length_cons, List.length_nil,
        beq_self_eq_true, if_true, beq_iff_eq, hiff]
      omega
    | dangling => exact absurd hd (by simp)

/-- A field that a character ends, and that stands for itself up to this character, has neither an
escape nor the character. -/
theorem notMem_of_unescape_field (hescape : ∀ c d, escape c = some d → (c = '\\' ↔ d = '\\'))
    {stop : Char} (hstop : stop ≠ '\\')
    (h : symbols (x ++ stop :: y) = ts ++ .plain stop :: us) (hts : .plain stop ∉ ts)
    (hdecode : unescape escape ts = some x) : '\\' ∉ x ∧ stop ∉ x := by
  have hsource : sourceOf ts ++ stop :: sourceOf us = x ++ stop :: y := by
    rw [← sourceOf_symbols (x ++ stop :: y), h, sourceOf_append, sourceOf_cons]
    rfl
  have hcount := count_backslash_sourceOf hescape hdecode
  -- what the source has beyond `x` consists of backslashes, but would begin with `stop`
  have hx : sourceOf ts = x := by
    have hprefix : x <+: sourceOf ts := by
      have hlength : x.length ≤ (sourceOf ts).length := by
        rw [length_of_unescape hdecode]
        exact length_le_length_sourceOf ts
      exact List.prefix_of_prefix_length_le ⟨stop :: y, rfl⟩ ⟨stop :: sourceOf us, hsource⟩ hlength
    obtain ⟨tail, htail⟩ := hprefix
    rw [← htail, List.count_append, List.length_append] at hcount
    cases tail with
    | nil => rw [← htail, List.append_nil]
    | cons c tail =>
      rw [← htail, List.append_assoc] at hsource
      obtain ⟨rfl, -⟩ := List.cons.inj (List.append_cancel_left hsource)
      have hle := List.count_le_length (a := '\\') (l := tail)
      rw [List.count_cons_of_ne hstop, List.length_cons] at hcount
      omega
  have hsymbols : symbols x = ts := hx ▸ symbols_sourceOf h
  rw [← hsymbols] at hdecode hts
  have hx := backslash_notMem_of_unescape hdecode
  refine ⟨hx, fun hmem => hts ?_⟩
  rw [symbols_map_plain hx]
  exact List.mem_map_of_mem hmem

end Wardex.Lib
