import Mathlib.Algebra.GroupWithZero.Nat
import Mathlib.Data.List.Basic
import Mathlib.Tactic.SplitIfs

/-! The tokens of a text in the POSIX shell command language: quotes, blanks, operators and
comments.  A text that ends within quotes or after a backslash has no tokens, nor has one with an
expansion in it. -/

namespace Wardex.Lib.Shell

/-- The characters of a word stand with a mark that tells whether they were quoted. -/
inductive Token where
  | word (text : List (Char × Bool))
  | operator (text : List Char)
deriving DecidableEq

inductive Mode where
  | bare
  | escaped
  | single
  | double
  | doubleEscaped
  | comment
deriving DecidableEq

/-- How many more characters are lost before a comment starts. -/
def Mode.depth : Mode → Nat
  | .comment => 0
  | .bare | .escaped => 1
  | .single | .double | .doubleEscaped => 2

/-- The finished tokens and the one that is being read. -/
structure State where
  done : List Token
  pending : Option Token
  mode : Mode
deriving DecidableEq

def Token.length : Token → Nat
  | word text => text.length
  | operator text => text.length

/-- A word whose characters have one mark. -/
def marked (quoted : Bool) (text : List Char) : Token := .word (text.map fun c => (c, quoted))

/-- What is left of a token without the marks. -/
def Token.unmark : Token → Token
  | word text => marked false (text.map Prod.fst)
  | operator text => operator text

/-- No character that stands for other words is unquoted. -/
def Token.Literal : Token → Prop
  | word text => ∀ c, (c, false) ∈ text → c ∉ ['*', '?', '[', '~']
  | operator _ => True

def isBlank (c : Char) : Bool := c == ' ' || c == '\t'

def operators : List (List Char) :=
  ["&", "|", ";", "<", ">", "(", ")", "\n", "&&", "||", ";;", "<<", ">>", "<&", ">&", "<>", "<<-",
    ">|"].map String.toList

theorem quote_not_mem_operators : ∀ op ∈ operators, '\'' ∉ op := by
  decide

theorem blank_not_mem_operators : ∀ op ∈ operators, ' ' ∉ op := by
  decide

def isExpansion (c : Char) : Bool := c == '$' || c == '`'

namespace State

def start : State := ⟨[], none, .bare⟩

def flushed (s : State) : List Token := s.done ++ s.pending.toList

/-- The tokens before the word that goes on or begins. -/
def beforeWord (s : State) : List Token :=
  match s.pending with
  | some (.operator op) => s.done ++ [.operator op]
  | _ => s.done

def wordSoFar (s : State) : List (Char × Bool) :=
  match s.pending with
  | some (.word text) => text
  | _ => []

def inWord (s : State) : Bool :=
  match s.pending with
  | some (.word _) => true
  | _ => false

def push (s : State) (chars : List Char) (quoted : Bool) (mode : Mode) : State :=
  ⟨s.beforeWord, some (.word (s.wordSoFar ++ chars.map fun c => (c, quoted))), mode⟩

/-- The operator that is being read with one more character, if that is an operator. -/
def extended (s : State) (c : Char) : Option (List Char) :=
  match s.pending with
  | some (.operator op) => if op ++ [c] ∈ operators then some (op ++ [c]) else none
  | _ => none

def bareStep (s : State) (c : Char) : Option State :=
  match s.extended c with
  | some op => some { s with pending := some (.operator op) }
  | none =>
    if c = '\\' then some { s with mode := .escaped }
    else if c = '\'' then some (s.push [] true .single)
    else if c = '"' then some (s.push [] true .double)
    else if isExpansion c then none
    else if [c] ∈ operators then some ⟨s.flushed, some (.operator [c]), .bare⟩
    else if isBlank c then some ⟨s.flushed, none, .bare⟩
    else if c = '#' ∧ s.inWord = false then some ⟨s.flushed, none, .comment⟩
    else some (s.push [c] false .bare)

def step (s : State) (c : Char) : Option State :=
  match s.mode with
  | .bare => s.bareStep c
  | .escaped =>
    -- a newline after a backslash goes away with it
    if c = '\n' then some { s with mode := .bare } else some (s.push [c] true .bare)
  | .single =>
    if c = '\'' then some { s with mode := .bare } else some (s.push [c] true .single)
  | .double =>
    if isExpansion c then none
    else if c = '"' then some { s with mode := .bare }
    else if c = '\\' then some { s with mode := .doubleEscaped }
    else some (s.push [c] true .double)
  | .doubleEscaped =>
    if c = '\n' then some { s with mode := .double }
    else if isExpansion c ∨ c = '"' ∨ c = '\\' then some (s.push [c] true .double)
    else some (s.push ['\\', c] true .double)
  | .comment =>
    if c = '\n' then some ⟨s.flushed, some (.operator [c]), .bare⟩ else some s

def run (s : State) (text : List Char) : Option State := text.foldlM step s

def finish (s : State) : Option (List Token) :=
  if s.mode = .bare ∨ s.mode = .comment then some s.flushed else none

end State

def tokens (text : List Char) : Option (List Token) :=
  (State.start.run text).bind State.finish

example : tokens "a\\ b 'c'\"$\"".toList = none ∧
    (tokens "a\\ b 'c d'&&e#f #g".toList).map (·.map Token.unmark) =
      some [marked false "a b".toList, marked false "c d".toList, .operator "&&".toList,
        marked false "e#f".toList] := by
  decide

/-! ### Runs -/

namespace State

variable {s s' : State} {c : Char} {text : List Char}

@[simp] theorem run_nil : s.run [] = some s := rfl

theorem run_cons : s.run (c :: text) = (s.step c).bind fun s' => s'.run text := rfl

theorem run_append (rest : List Char) :
    s.run (text ++ rest) = (s.run text).bind fun s' => s'.run rest :=
  List.foldlM_append

theorem run_singleton : s.run [c] = s.step c := by
  rw [run_cons]
  cases s.step c <;> rfl

/-- What every step keeps up, a run keeps up. -/
theorem run_induction {P : State → List Char → State → Prop} (hnil : ∀ s, P s [] s)
    (hcons : ∀ s c next text s', s.step c = some next → P next text s' → P s (c :: text) s')
    (h : s.run text = some s') : P s text s' := by
  induction text generalizing s with
  | nil =>
    obtain rfl := Option.some.inj h
    exact hnil s
  | cons c text ih =>
    rw [run_cons, Option.bind_eq_some_iff] at h
    obtain ⟨next, hstep, hrun⟩ := h
    exact hcons s c next text s' hstep (ih hrun)

/-- What a step does to the tokens. -/
inductive Move (s : State) (c : Char) : State → Prop
  | turn (mode : Mode) : Move s c { s with mode }
  | keep (chars : List Char) (quoted : Bool) (mode : Mode) : Move s c (s.push chars quoted mode)
  | cut (mode : Mode) : Move s c ⟨s.flushed, none, mode⟩
  | operator : Move s c ⟨s.flushed, some (.operator [c]), .bare⟩
  | extend {op : List Char} (h : s.extended c = some op) :
      Move s c { s with pending := some (.operator op) }

theorem extended_eq_some_iff {op : List Char} : s.extended c = some op ↔
    ∃ start, s.pending = some (.operator start) ∧ start ++ [c] ∈ operators ∧ start ++ [c] = op := by
  unfold extended
  split
  · next start hpending =>
    rw [hpending, Option.ite_none_right_eq_some, Option.some_inj]
    constructor
    · exact fun h => ⟨start, rfl, h⟩
    · rintro ⟨start', hstart, h⟩
      obtain rfl := Token.operator.inj (Option.some.inj hstart)
      exact h
  · next hpending => exact iff_of_false nofun fun ⟨start, hstart, _⟩ => hpending start hstart

theorem bareStep_move (h : s.bareStep c = some s') : Move s c s' := by
  unfold bareStep at h
  split at h
  · next op hop =>
    obtain rfl := Option.some.inj h
    exact .extend hop
  · split_ifs at h <;> obtain rfl := Option.some.inj h
    · exact .turn _
    · exact .keep _ _ _
    · exact .keep _ _ _
    · exact .operator
    · exact .cut _
    · exact .cut _
    · exact .keep _ _ _

theorem step_move (h : s.step c = some s') : Move s c s' := by
  unfold step at h
  split at h
  · exact bareStep_move h
  · split_ifs at h <;> obtain rfl := Option.some.inj h
    · exact .turn _
    · exact .keep _ _ _
  · split_ifs at h <;> obtain rfl := Option.some.inj h
    · exact .turn _
    · exact .keep _ _ _
  · split_ifs at h <;> obtain rfl := Option.some.inj h
    · exact .turn _
    · exact .turn _
    · exact .keep _ _ _
  · split_ifs at h <;> obtain rfl := Option.some.inj h
    · exact .turn _
    · exact .keep _ _ _
    · exact .keep _ _ _
  · split_ifs at h <;> obtain rfl := Option.some.inj h
    · exact .operator
    · exact .turn s.mode

theorem done_extends_flushed : s.done <+: s.flushed := List.prefix_append _ _

/-- Finished tokens stay. -/
theorem Move.done_extends (h : Move s c s') : s.done <+: s'.done := by
  cases h with
  | turn => exact List.prefix_rfl
  | keep chars quoted mode =>
    simp only [push, beforeWord]
    split
    · exact List.prefix_append _ _
    · exact List.prefix_rfl
  | cut => exact done_extends_flushed
  | operator => exact done_extends_flushed
  | extend => exact List.prefix_rfl

theorem done_extends_of_run (h : s.run text = some s') : s.done <+: s'.done :=
  run_induction (P := fun s _ s' => s.done <+: s'.done) (fun _ => List.prefix_rfl)
    (fun _ _ _ _ _ hstep ih => (step_move hstep).done_extends.trans ih) h

theorem mem_flushed_push {chars : List Char} {quoted : Bool} {mode : Mode} {op : List Char} :
    .operator op ∈ (s.push chars quoted mode).flushed ↔ .operator op ∈ s.flushed := by
  simp only [push, flushed, beforeWord, Option.toList_some, List.mem_append, List.mem_singleton,
    reduceCtorEq, or_false]
  cases hpending : s.pending with
  | none => simp
  | some t => cases t <;> simp

/-- The operators of `s` do without the character `d`. -/
def Without (d : Char) (s : State) : Prop := ∀ op, .operator op ∈ s.flushed → d ∉ op

theorem Move.without {d : Char} (h : Move s c s') (hs : s.Without d) (hc : c ≠ d) :
    s'.Without d := by
  have hsingle : d ∉ [c] := fun hmem => hc (List.mem_singleton.mp hmem).symm
  cases h with
  | turn => exact hs
  | keep => exact fun op hop => hs op (mem_flushed_push.mp hop)
  | cut =>
    intro op hop
    rw [flushed, Option.toList_none, List.append_nil] at hop
    exact hs op hop
  | operator =>
    intro op hop
    rw [flushed, Option.toList_some, List.mem_append, List.mem_singleton] at hop
    rcases hop with hop | hop
    · exact hs op hop
    · obtain rfl := Token.operator.inj hop
      exact hsingle
  | extend hop =>
    obtain ⟨begun, hpending, -, rfl⟩ := extended_eq_some_iff.mp hop
    intro op hmem
    rw [flushed, Option.toList_some, List.mem_append, List.mem_singleton] at hmem
    rcases hmem with hmem | hmem
    · exact hs op (List.mem_append_left _ hmem)
    · obtain rfl := Token.operator.inj hmem
      have hbegun : d ∉ begun := by
        refine hs begun (List.mem_append_right _ ?_)
        rw [hpending, Option.toList_some]
        exact List.mem_singleton_self _
      exact fun hd => (List.mem_append.mp hd).elim hbegun hsingle

theorem Without.run {d : Char} (hs : s.Without d) (htext : d ∉ text)
    (h : s.run text = some s') : s'.Without d := by
  refine run_induction (P := fun s text s' => s.Without d → d ∉ text → s'.Without d)
    (fun _ hs _ => hs) (fun s c next text s' hstep ih hs htext => ?_) h hs htext
  rw [List.mem_cons, not_or] at htext
  exact ih ((step_move hstep).without hs (Ne.symm htext.1)) htext.2

/-! ### How much of the text comes out -/

def size (tokens : List Token) : Nat := (tokens.map Token.length).sum

/-- The characters of all tokens, with a backslash between double quotes that may still come
out. -/
def weight (s : State) : Nat := size s.flushed + if s.mode = .doubleEscaped then 1 else 0

theorem size_append (tokens tokens' : List Token) :
    size (tokens ++ tokens') = size tokens + size tokens' := by
  simp only [size, List.map_append, List.sum_append]

theorem size_singleton (token : Token) : size [token] = token.length := by
  simp only [size, List.map_cons, List.map_nil, List.sum_cons, List.sum_nil, Nat.add_zero]

theorem size_push {chars : List Char} {quoted : Bool} {mode : Mode} :
    size (s.push chars quoted mode).flushed = size s.flushed + chars.length := by
  simp only [push, flushed, Option.toList_some, size_append, size_singleton, Token.length,
    List.length_append, List.length_map, beforeWord, wordSoFar]
  cases hpending : s.pending with
  | none => simp [size]
  | some t => cases t <;> simp [size_append, size_singleton, Token.length, Nat.add_assoc]

theorem size_flushed_operator {mode : Mode} :
    size (State.flushed ⟨s.flushed, some (.operator [c]), mode⟩) = size s.flushed + 1 := by
  rw [flushed, Option.toList_some, size_append, size_singleton]
  rfl

theorem size_flushed_cut {mode : Mode} :
    size (State.flushed ⟨s.flushed, none, mode⟩) = size s.flushed := by
  rw [flushed, Option.toList_none, List.append_nil]

theorem size_extended {op : List Char} (h : s.extended c = some op) :
    size (State.flushed { s with pending := some (.operator op) }) = size s.flushed + 1 := by
  obtain ⟨begun, hpending, -, rfl⟩ := extended_eq_some_iff.mp h
  rw [flushed, flushed, hpending, Option.toList_some, Option.toList_some, size_append, size_append,
    size_singleton, size_singleton, Token.length, Token.length, List.length_append,
    List.length_singleton, Nat.add_assoc]

theorem extended_eq_none (hc : ∀ op ∈ operators, c ∉ op) : s.extended c = none := by
  rw [Option.eq_none_iff_forall_ne_some]
  intro op hop
  obtain ⟨begun, -, hmem, -⟩ := extended_eq_some_iff.mp hop
  exact hc _ hmem (List.mem_append_right _ (List.mem_singleton_self c))

/-- A bare character is kept, or is lost. -/
theorem bareStep_cases (hbare : s.mode = .bare) (h : s.bareStep c = some s') :
    (s'.mode = .bare ∧ c ≠ '\'' ∧ size s'.flushed = size s.flushed + 1) ∨
      (s'.mode ≠ .doubleEscaped ∧ size s'.flushed = size s.flushed) := by
  unfold bareStep at h
  split at h
  · next op hop =>
    obtain rfl := Option.some.inj h
    refine .inl ⟨hbare, ?_, size_extended hop⟩
    rintro rfl
    rw [extended_eq_none quote_not_mem_operators] at hop
    cases hop
  · split_ifs at h with hbackslash hquote hdouble hexpansion hop hblank hcomment <;>
      obtain rfl := Option.some.inj h
    · exact .inr ⟨nofun, rfl⟩
    · exact .inr ⟨nofun, size_push⟩
    · exact .inr ⟨nofun, size_push⟩
    · exact .inl ⟨rfl, hquote, size_flushed_operator⟩
    · exact .inr ⟨nofun, size_flushed_cut⟩
    · exact .inr ⟨nofun, size_flushed_cut⟩
    · exact .inl ⟨rfl, hquote, size_push⟩

theorem weight_push {chars : List Char} {quoted : Bool} {mode : Mode} :
    (s.push chars quoted mode).weight =
      size s.flushed + chars.length + if mode = .doubleEscaped then 1 else 0 := by
  rw [weight, size_push]
  rfl

theorem push_mode {chars : List Char} {quoted : Bool} {mode : Mode} :
    (s.push chars quoted mode).mode = mode := rfl

theorem weight_turn (mode : Mode) : weight { s with mode := mode } =
    size s.flushed + if mode = .doubleEscaped then 1 else 0 := rfl

theorem step_blank_of_bare (hmode : s.mode = .bare) :
    s.step ' ' = some ⟨s.flushed, none, .bare⟩ := by
  rw [step, hmode]
  dsimp only
  rw [bareStep, extended_eq_none blank_not_mem_operators]
  rfl

theorem step_quote_of_bare (hmode : s.mode = .bare) :
    s.step '\'' = some (s.push [] true .single) := by
  rw [step, hmode]
  dsimp only
  rw [bareStep, extended_eq_none quote_not_mem_operators]
  rfl

/-- At most one character comes out for each, and on the way to a comment some are lost. -/
theorem weight_step (h : s.step c = some s') :
    s'.weight ≤ s.weight + 1 ∧ s'.weight + s.mode.depth ≤ s.weight + 1 + s'.mode.depth := by
  cases hmode : s.mode with
  | bare =>
    simp only [step, hmode] at h
    rcases bareStep_cases hmode h with ⟨hbare, -, hsize⟩ | ⟨hother, hsize⟩
    · simp only [weight, hmode, hbare, hsize, Mode.depth, reduceCtorEq, if_false]
      omega
    · simp only [weight, hmode, hsize, if_neg hother, Mode.depth, reduceCtorEq, if_false]
      omega
  | comment =>
    simp only [step, hmode] at h
    split_ifs at h <;> obtain rfl := Option.some.inj h
    · simp [weight, hmode, Mode.depth, size_flushed_operator]
    · rw [hmode]
      omega
  | escaped | single | double | doubleEscaped =>
    simp only [step, hmode] at h
    have hweight : s.weight = size s.flushed + if s.mode = .doubleEscaped then 1 else 0 := rfl
    simp only [hmode, reduceCtorEq, if_true, if_false] at hweight
    split_ifs at h <;> obtain rfl := Option.some.inj h <;>
      simp [weight_push, weight_turn, push_mode, Mode.depth, hweight] <;> omega

theorem weight_run (h : s.run text = some s') :
    s'.weight ≤ s.weight + text.length ∧
      s'.weight + s.mode.depth ≤ s.weight + text.length + s'.mode.depth := by
  refine run_induction (P := fun s text s' => s'.weight ≤ s.weight + text.length ∧
    s'.weight + s.mode.depth ≤ s.weight + text.length + s'.mode.depth) (fun s => ?_)
    (fun s c next text s' hstep ih => ?_) h
  · exact ⟨Nat.le_refl _, Nat.le_refl _⟩
  · have hone := weight_step hstep
    rw [List.length_cons]
    omega

/-- Before a quote is read some character is lost, if only the quote. -/
theorem weight_run_of_quote (hbare : s.mode = .bare) (hquote : '\'' ∈ text)
    (h : s.run text = some s') : s'.weight < s.weight + text.length := by
  induction text generalizing s with
  | nil => exact absurd hquote List.not_mem_nil
  | cons c text ih =>
    rw [run_cons, Option.bind_eq_some_iff] at h
    obtain ⟨next, hstep, hrun⟩ := h
    have hbareStep : s.bareStep c = some next := by
      rw [step, hbare] at hstep
      exact hstep
    rw [List.length_cons]
    rcases bareStep_cases hbare hbareStep with ⟨hnext, hc, -⟩ | ⟨hother, hsize⟩
    · have hrest := ih hnext ((List.mem_cons.mp hquote).resolve_left (Ne.symm hc)) hrun
      have hone := (weight_step hstep).1
      omega
    · -- the character was lost
      have hrest := (weight_run hrun).1
      have hlost : next.weight ≤ s.weight := by
        rw [weight, weight, hsize, if_neg hother]
        exact Nat.le_add_right _ _
      omega

/-! ### Modes -/

theorem step_mode_of_ne_backslash (hc : c ≠ '\\') (h : s.step c = some s') :
    s'.mode ≠ .escaped ∧ s'.mode ≠ .doubleEscaped := by
  cases hmode : s.mode with
  | bare =>
    simp only [step, hmode, bareStep, hc, if_false] at h
    split at h
    · obtain rfl := Option.some.inj h
      simp
    · split_ifs at h <;> obtain rfl := Option.some.inj h <;> simp [push]
  | escaped | single | double | doubleEscaped | comment =>
    simp only [step, hmode, hc, if_false] at h
    split_ifs at h <;> obtain rfl := Option.some.inj h <;> simp [push, hmode]

theorem run_mode_of_ne_backslash (hc : c ≠ '\\') (h : s.run (text ++ [c]) = some s') :
    s'.mode ≠ .escaped ∧ s'.mode ≠ .doubleEscaped := by
  rw [run_append] at h
  obtain ⟨before, -, hlast⟩ := Option.bind_eq_some_iff.mp h
  rw [run_singleton] at hlast
  exact step_mode_of_ne_backslash hc hlast

/-- Single quotes are opened and closed by quotes only. -/
theorem step_single_iff (hc : c ≠ '\'') (h : s.step c = some s') :
    s'.mode = .single ↔ s.mode = .single := by
  cases hmode : s.mode with
  | bare =>
    simp only [step, hmode, bareStep, hc, if_false] at h
    split at h
    · obtain rfl := Option.some.inj h
      simp
    · split_ifs at h <;> obtain rfl := Option.some.inj h <;> simp [push]
  | single =>
    simp only [step, hmode, hc, if_false] at h
    obtain rfl := Option.some.inj h
    simp [push]
  | escaped | double | doubleEscaped | comment =>
    simp only [step, hmode] at h
    split_ifs at h <;> obtain rfl := Option.some.inj h <;> simp [push, hmode]

theorem run_single_iff (htext : '\'' ∉ text) (h : s.run text = some s') :
    s'.mode = .single ↔ s.mode = .single := by
  refine run_induction (P := fun s text s' => '\'' ∉ text → (s'.mode = .single ↔ s.mode = .single))
    (fun s _ => Iff.rfl) (fun s c next text s' hstep ih htext => ?_) h htext
  rw [List.mem_cons, not_or] at htext
  exact (ih htext.2).trans (step_single_iff (Ne.symm htext.1) hstep)

/-- A text without quotes within single quotes becomes part of the word. -/
theorem run_single {done : List Token} {word : List (Char × Bool)} (htext : '\'' ∉ text) :
    run ⟨done, some (.word word), .single⟩ text =
      some ⟨done, some (.word (word ++ text.map fun c => (c, true))), .single⟩ := by
  induction text generalizing word with
  | nil => rw [run_nil, List.map_nil, List.append_nil]
  | cons c text ih =>
    rw [List.mem_cons, not_or] at htext
    have hstep : step ⟨done, some (.word word), .single⟩ c =
        some ⟨done, some (.word (word ++ [(c, true)])), .single⟩ := if_neg (Ne.symm htext.1)
    rw [run_cons, hstep, Option.bind_some, ih htext.2, List.map_cons, List.append_assoc,
      List.singleton_append]

theorem finish_eq_some_iff {tokens : List Token} : s.finish = some tokens ↔
    (s.mode = .bare ∨ s.mode = .comment) ∧ s.flushed = tokens := by
  rw [finish, Option.ite_none_right_eq_some, Option.some_inj]

/-- A text with a quote in it, put between single quotes: some character of it is lost. -/
theorem exists_run_of_quote {done toks : List Token} {rest : List Char} (hquote : '\'' ∈ text)
    (h : (run ⟨done, some (.word []), .single⟩ (text ++ '\'' :: rest)).bind finish = some toks) :
    ∃ atEnd, run ⟨done, some (.word []), .single⟩ (text ++ ['\'']) = some atEnd ∧
      (atEnd.run rest).bind finish = some toks ∧ atEnd.weight < size done + text.length ∧
      atEnd.mode ≠ .escaped ∧ atEnd.mode ≠ .doubleEscaped := by
  rw [List.append_cons, run_append, Option.bind_assoc] at h
  obtain ⟨atEnd, hatEnd, hrest⟩ := Option.bind_eq_some_iff.mp h
  refine ⟨atEnd, hatEnd, hrest, ?_, run_mode_of_ne_backslash (by decide) hatEnd⟩
  obtain ⟨before, after, rfl, hbefore⟩ := List.eq_append_cons_of_mem hquote
  -- up to the first quote of the text nothing is lost
  have hopened : run ⟨done, some (.word []), .single⟩ (before ++ ['\'']) =
      some ⟨done, some (marked true before), .bare⟩ := by
    rw [run_append, run_single hbefore]
    rfl
  rw [List.append_cons before, List.append_assoc, run_append, hopened, Option.bind_some] at hatEnd
  have hlost := weight_run_of_quote rfl (List.mem_append_right _ (List.mem_singleton_self _)) hatEnd
  have hweight : weight ⟨done, some (marked true before), .bare⟩ = size done + before.length := by
    rw [weight, flushed, Option.toList_some, size_append, size_singleton, marked, Token.length,
      List.length_map]
    rfl
  rw [hweight, List.length_append, List.length_singleton] at hlost
  rw [List.length_append, List.length_cons]
  omega

/-- A text that ends without quotes open, and its tokens, by runs over its two parts. -/
theorem tokens_append {rest : List Char} (h : State.start.run text = some s) :
    tokens (text ++ rest) = (s.run rest).bind finish := by
  rw [tokens, run_append, h, Option.bind_some]

end State
end Wardex.Lib.Shell
