import Mathlib.Logic.ExistsUnique
import Wardex.Policy.Correctness

/-! Which rule texts compile, and for which of them that is right. -/

namespace Wardex.Policy

open Wardex.Lib

variable {F : Type}

/-! ## Tokens as symbols -/

def tokenSymbol : Token F → Option (Symbol F)
  | .number v => some (.atom (.number v))
  | .ident name => some (.atom (.ident name))
  | .op c =>
    if c = '+' then some (.bin .add) else if c = '-' then some (.bin .sub)
    else if c = '*' then some (.bin .mul) else if c = '/' then some (.bin .div) else none
  | .gt => some (.bin .gt)
  | .lt => some (.bin .lt)
  | .ge => some (.bin .ge)
  | .le => some (.bin .le)
  | .eq => some (.bin .eq)
  | .and => some (.bin .and)
  | .or => some (.bin .or)
  | .not => some (.un ())

theorem tokenSymbol_symbolToken (sym : Symbol F) : tokenSymbol (symbolToken sym) = some sym := by
  rcases sym with (v | name) | _ | b
  · rfl
  · rfl
  · rfl
  · cases b <;> rfl

theorem symbolToken_injective : Function.Injective (symbolToken : Symbol F → Token F) := by
  intro sym sym' h
  have hsym := congrArg tokenSymbol h
  rwa [tokenSymbol_symbolToken, tokenSymbol_symbolToken, Option.some.injEq] at hsym

/-- The scanner that the compiler does without: operands and binary operators alternate,
and NOT stands before an operand. -/
def alternates : Bool → List (Token F) → Bool
  | operandExpected, [] => !operandExpected
  | true, .number _ :: rest | true, .ident _ :: rest => alternates false rest
  | true, .not :: rest => alternates true rest
  | true, _ :: _ => false
  | false, .number _ :: _ | false, .ident _ :: _ | false, .not :: _ => false
  | false, _ :: rest => alternates true rest

theorem alternates_map (syms : List (Symbol F)) :
    alternates true (syms.map symbolToken) = OpTree.expectsOperand syms ∧
      alternates false (syms.map symbolToken) = OpTree.expectsOperator syms := by
  induction syms with
  | nil =>
    rw [OpTree.expectsOperand.eq_def, OpTree.expectsOperator.eq_def]
    exact ⟨rfl, rfl⟩
  | cons sym rest ih =>
    rw [OpTree.expectsOperand.eq_def, OpTree.expectsOperator.eq_def]
    rcases sym with (v | name) | _ | b
    · exact ⟨ih.2, rfl⟩
    · exact ⟨ih.2, rfl⟩
    · exact ⟨ih.1, rfl⟩
    · cases b <;> exact ⟨rfl, ih.1⟩

variable [F64 F]

theorem exists_symbol_of_nextToken {i : Nat} {c : Char} {rest : List Char} {tok : Token F}
    {extra : Nat} (h : nextToken i c rest = .ok (some tok, extra)) :
    ∃ sym, symbolToken sym = tok := by
  have hword : ∀ word : List Char, ∃ sym : Symbol F, symbolToken sym = wordToken word := by
    intro word
    unfold wordToken
    dsimp only
    split_ifs
    · exact ⟨.bin .and, rfl⟩
    · exact ⟨.bin .or, rfl⟩
    · exact ⟨.un (), rfl⟩
    · exact ⟨.atom (.ident _), rfl⟩
  unfold nextToken at h
  dsimp only at h
  split_ifs at h with hblank hop hgt hge hlt hle heq hee hnum hstart
  · cases h
  · cases h
    rcases hop with rfl | rfl | rfl | rfl
    · exact ⟨.bin .add, rfl⟩
    · exact ⟨.bin .sub, rfl⟩
    · exact ⟨.bin .mul, rfl⟩
    · exact ⟨.bin .div, rfl⟩
  · cases h
    exact ⟨.bin .ge, rfl⟩
  · cases h
    exact ⟨.bin .gt, rfl⟩
  · cases h
    exact ⟨.bin .le, rfl⟩
  · cases h
    exact ⟨.bin .lt, rfl⟩
  · cases h
    exact ⟨.bin .eq, rfl⟩
  · split at h
    · next v _ =>
      cases h
      exact ⟨.atom (.number v), rfl⟩
    · cases h
  · cases h
    exact hword _

/-- Every token list that the tokenizer returns is a list of symbols. -/
theorem exists_symbols_of_tokenizeFrom {i : Nat} {chars : List Char} {tokens : List (Token F)}
    (h : tokenizeFrom i chars = .ok tokens) :
    ∃ syms : List (Symbol F), tokens = syms.map symbolToken := by
  induction i, chars using tokenizeFrom.induct generalizing tokens with
  | case1 i =>
    rw [tokenizeFrom] at h
    cases h
    exact ⟨[], rfl⟩
  | case2 i c rest ih =>
    rw [tokenizeFrom] at h
    rcases hnext : (nextToken i c rest : Except String (Option (Token F) × Nat)) with
      error | ⟨token, extra⟩
    · rw [hnext] at h
      cases h
    · rw [hnext] at h
      rcases hrest : (tokenizeFrom (i + 1 + extra) (rest.drop extra) :
          Except String (List (Token F))) with error | tokens'
      · simp only [bind, Except.bind, hrest] at h
        cases h
      · simp only [bind, Except.bind, hrest] at h
        cases h
        obtain ⟨syms, rfl⟩ := ih extra hrest
        cases token with
        | none => exact ⟨syms, rfl⟩
        | some tok =>
          obtain ⟨sym, rfl⟩ := exists_symbol_of_nextToken hnext
          exact ⟨sym :: syms, rfl⟩

/-! ## Acceptance -/

/-- A rule text that compiles is a well-formed expression: it has one syntax tree, and its
program never runs into an empty stack, stores exactly one result and leaves no operand
behind. -/
def CompilesWellFormed (F : Type) [F64 F] (expression : String) : Prop :=
  ∀ (name : String) (program : PolicyProgram F), compileRule name expression = .ok program →
    (∃! e : Expr F, e.WellFormed rulePrecedence ∧ tokenize expression = .ok e.tokens) ∧
    ∀ (vm : PolicyVm) (env : Bindings F),
      (∀ op, (vm.run program env).2 ≠ some ("stack underflow in " ++ op)) ∧
      ((vm.run program env).2 = none →
        (∃ v, (vm.run program env).1.outputs = [("result", v)]) ∧
        (vm.run program env).1.stack = [])

theorem ne_underflow {error op : String} (h : error.toList.take 5 ≠ ['s', 't', 'a', 'c', 'k'] ∨
    error = "stack overflow") : error ≠ "stack underflow in " ++ op := by
  rintro rfl
  rcases h with h | h
  · exact h (by simp)
  · have := congrArg (fun s => s.toList.take 7) h
    simp at this

/-- The program of a well-formed expression keeps all that the compiler promises. -/
theorem run_tokens {expression : String} {e : Expr F} (hwf : e.WellFormed rulePrecedence)
    (htokens : tokenize expression = .ok e.tokens) : CompilesWellFormed F expression := by
  intro name program hprogram
  obtain ⟨program', hprogram', hcode⟩ := exists_program htokens name (compileTokens_tokens hwf)
  obtain rfl := Except.ok.inj (hprogram.symm.trans hprogram')
  refine ⟨⟨e, ⟨hwf, htokens⟩, ?_⟩, fun vm env => ?_⟩
  · rintro e' ⟨hwf', htokens'⟩
    refine hwf'.written_inj hwf (symbolToken_injective.list_map ?_)
    exact Except.ok.inj (htokens'.symm.trans htokens)
  rcases run_code vm env hcode with (hlimit | hlimit) | hrun
  · rw [hlimit]
    exact ⟨fun op h => ne_underflow (Or.inl (by decide)) (Option.some.inj h), nofun⟩
  · rw [hlimit]
    exact ⟨fun op h => ne_underflow (Or.inr rfl) (Option.some.inj h), nofun⟩
  · cases hv : eval env e with
    | none =>
      rw [hv] at hrun
      rw [hrun]
      exact ⟨fun op h => ne_underflow (Or.inl (by decide)) (Option.some.inj h), nofun⟩
    | some v =>
      rw [hv] at hrun
      obtain ⟨herror, houtputs, hstack⟩ := hrun
      rw [herror, houtputs, hstack]
      exact ⟨fun op => nofun, fun _ => ⟨⟨v, rfl⟩, rfl⟩⟩

/-- **Compile-time rejection.**  The compiler accepts every text that can be cut into
tokens, so what compiles is a well-formed expression exactly where the tokenizer rejects the
text or its tokens alternate as the grammar wants. -/
theorem compilesWellFormed_iff (expression : String) :
    CompilesWellFormed F expression ↔
      ∀ tokens : List (Token F), tokenize expression = .ok tokens →
        alternates true tokens = true := by
  constructor
  · intro h tokens htokens
    obtain ⟨syms, rfl⟩ := exists_symbols_of_tokenizeFrom htokens
    obtain ⟨program, hprogram, -⟩ := exists_program htokens "rule" (compileTokens_map syms)
    obtain ⟨e, ⟨hwf, htokens'⟩, -⟩ := (h "rule" program hprogram).1
    have hsyms : e.written = syms :=
      symbolToken_injective.list_map (Except.ok.inj (htokens'.symm.trans htokens))
    rw [(alternates_map syms).1]
    exact (OpTree.expectsOperand_iff rulePrecedence syms).mpr ⟨e, hwf, hsyms⟩
  · intro h name program hprogram
    obtain ⟨tokens, htokens⟩ : ∃ tokens : List (Token F), tokenize expression = .ok tokens := by
      rw [compileRule] at hprogram
      cases htokens : (tokenize expression : Except String (List (Token F))) with
      | error message =>
        rw [htokens] at hprogram
        cases hprogram
      | ok tokens => exact ⟨tokens, rfl⟩
    obtain ⟨syms, rfl⟩ := exists_symbols_of_tokenizeFrom htokens
    have halt := h _ htokens
    rw [(alternates_map syms).1] at halt
    obtain ⟨e, hwf, rfl⟩ := (OpTree.expectsOperand_iff rulePrecedence syms).mp halt
    exact run_tokens hwf htokens name program hprogram

/-- The empty text compiles and stores no result, two operands leave one behind, and an
operator without its second operand runs into the empty stack. -/
theorem compilesWellFormed_fails :
    ¬ CompilesWellFormed ℚ "" ∧ ¬ CompilesWellFormed ℚ "a b" ∧ ¬ CompilesWellFormed ℚ "a +" := by
  refine ⟨fun h => ?_, fun h => ?_, fun h => ?_⟩
  · obtain ⟨-, hrun⟩ := h "rule" ⟨"rule", 1, [.storeResult "result", .halt], "compiled from: "⟩
      (by decide +kernel)
    obtain ⟨⟨v, hv⟩, -⟩ := (hrun ⟨10000, 256⟩ []).2 (by decide +kernel)
    have hone := congrArg List.length hv
    rw [List.length_singleton] at hone
    exact absurd hone (by decide +kernel)
  · obtain ⟨-, hrun⟩ := h "rule" ⟨"rule", 1,
      [.loadVar "a", .loadVar "b", .storeResult "result", .halt], "compiled from: a b"⟩
      (by decide +kernel)
    exact absurd ((hrun ⟨10000, 256⟩ []).2 (by decide +kernel)).2 (by decide +kernel)
  · obtain ⟨-, hrun⟩ := h "rule" ⟨"rule", 1,
      [.loadVar "a", .add, .storeResult "result", .halt], "compiled from: a +"⟩
      (by decide +kernel)
    exact absurd (by decide +kernel) ((hrun ⟨10000, 256⟩ []).1 "Add")

end Wardex.Policy
