import Wardex.Lib.OpTree
import Wardex.Policy.Vm

/-! The rule language: its expressions, what they mean, how they are written as tokens,
and the compiler's token loop as the shunting yard over them. -/

namespace Wardex.Policy

open Wardex.Lib

inductive Operand (F : Type) where
  | number (v : F)
  | ident (name : String)
deriving DecidableEq

inductive BinOp where
  | add
  | sub
  | mul
  | div
  | gt
  | lt
  | ge
  | le
  | eq
  | and
  | or
deriving DecidableEq

/-- The only unary operator is NOT. -/
abbrev Expr (F : Type) := OpTree (Operand F) Unit BinOp

abbrev Symbol (F : Type) := Sym (Operand F) Unit BinOp

/-- OR < AND < NOT < comparison < additive < multiplicative. -/
def rulePrecedence : Precedence Unit BinOp where
  un := fun _ => 3
  bin
    | .or => 1
    | .and => 2
    | .gt | .lt | .ge | .le | .eq => 4
    | .add | .sub => 5
    | .mul | .div => 6

variable {F : Type}

/-- The grammar with one layer for each precedence derives well-formed expressions; these
also have NOT as an operand of a tighter operator, as in `a > NOT b`. -/
theorem wellFormed_of_layered {e : Expr F} (h : OpTree.Layered rulePrecedence 1 e) :
    e.WellFormed rulePrecedence :=
  h.wellFormed fun u b => by cases u; cases b <;> decide

/-! ## Meaning -/

section Meaning

variable [F64 F]

/-- The value of an operator, none for a division by zero. -/
def BinOp.apply (a b : F) : BinOp → Option F
  | .add => some (F64.add a b)
  | .sub => some (F64.sub a b)
  | .mul => some (F64.mul a b)
  | .div => if F64.eq b F64.zero then none else some (F64.div a b)
  | .gt => some (truth (F64.gt a b))
  | .lt => some (truth (F64.lt a b))
  | .ge => some (truth (F64.ge a b))
  | .le => some (truth (F64.le a b))
  | .eq => some (cmpEq a b)
  | .and => some (truth (isTrue a && isTrue b))
  | .or => some (truth (isTrue a || isTrue b))

/-- A missing variable reads as 0. -/
def Operand.value (env : Bindings F) : Operand F → F
  | .number v => v
  | .ident name => (env.lookup name).getD F64.zero

/-- The value of an expression, none if its evaluation divides by zero. -/
def eval (env : Bindings F) : Expr F → Option F
  | .atom a => some (a.value env)
  | .un _ e => (eval env e).map logicalNot
  | .bin b l r => do
    let x ← eval env l
    let y ← eval env r
    b.apply x y

end Meaning

/-! ## Tokens and opcodes -/

def BinOp.token : BinOp → Token F
  | .add => .op '+'
  | .sub => .op '-'
  | .mul => .op '*'
  | .div => .op '/'
  | .gt => .gt
  | .lt => .lt
  | .ge => .ge
  | .le => .le
  | .eq => .eq
  | .and => .and
  | .or => .or

def symbolToken : Symbol F → Token F
  | .atom (.number v) => .number v
  | .atom (.ident name) => .ident name
  | .un _ => .not
  | .bin b => b.token

/-- An expression written as tokens, without parentheses. -/
def Expr.tokens (e : Expr F) : List (Token F) := e.written.map symbolToken

def BinOp.opcode : BinOp → Opcode F
  | .add => .add
  | .sub => .sub
  | .mul => .mul
  | .div => .div
  | .gt => .cmpGt
  | .lt => .cmpLt
  | .ge => .cmpGe
  | .le => .cmpLe
  | .eq => .cmpEq
  | .and => .and
  | .or => .or

def symbolOpcode : Symbol F → Opcode F
  | .atom (.number v) => .pushConst v
  | .atom (.ident name) => .loadVar name
  | .un _ => .not
  | .bin b => b.opcode

/-! ## The token loop -/

/-- An entry of the operator stack as the token that was pushed. -/
def opToken (op : Unit ⊕ BinOp) : Token F := symbolToken (OpTree.opSym op)

theorem isOperator_opToken (op : Unit ⊕ BinOp) : isOperator (opToken op : Token F) = true := by
  rcases op with _ | b
  · rfl
  · cases b <;> rfl

theorem precedence_opToken (op : Unit ⊕ BinOp) :
    precedence (opToken op : Token F) = OpTree.level rulePrecedence op := by
  rcases op with _ | b
  · rfl
  · cases b <;> rfl

theorem tokenToOpcode_opToken (op : Unit ⊕ BinOp) :
    tokenToOpcode (opToken op : Token F) = symbolOpcode (OpTree.opSym op) := by
  rcases op with _ | b
  · rfl
  · cases b <;> rfl

theorem popOperators_map (b : BinOp) (stack : List (Unit ⊕ BinOp)) :
    let keep := fun op => decide (rulePrecedence.bin b ≤ OpTree.level rulePrecedence op)
    popOperators (b.token : Token F) (stack.map opToken) =
      ((stack.takeWhile keep).map fun op => symbolOpcode (OpTree.opSym op),
        (stack.dropWhile keep).map opToken) := by
  intro keep
  have hb : precedence (b.token : Token F) = rulePrecedence.bin b := precedence_opToken (.inr b)
  induction stack with
  | nil => rfl
  | cons top rest ih =>
    rw [List.map_cons, popOperators, isOperator_opToken, precedence_opToken, hb, ih]
    by_cases h : rulePrecedence.bin b ≤ OpTree.level rulePrecedence top
    · have hk : keep top = true := decide_eq_true h
      rw [if_pos ⟨rfl, h⟩, List.takeWhile_cons_of_pos hk, List.dropWhile_cons_of_pos hk,
        List.map_cons, tokenToOpcode_opToken]
    · have hk : ¬ keep top = true := fun hk => h (of_decide_eq_true hk)
      rw [if_neg (fun hc => h hc.2), List.takeWhile_cons_of_neg hk, List.dropWhile_cons_of_neg hk]
      rfl

/-- The loop's variables as images of the shunting yard's. -/
def compileState (s : List (Symbol F) × List (Unit ⊕ BinOp)) :
    List (Opcode F) × List (Token F) := (s.1.map symbolOpcode, s.2.map opToken)

theorem compileToken_symbol (s : List (Symbol F) × List (Unit ⊕ BinOp)) (sym : Symbol F) :
    compileToken (compileState s) (symbolToken sym) =
      .ok (compileState (OpTree.shunt rulePrecedence s sym)) := by
  have happend : ∀ sym : Symbol F, s.1.map symbolOpcode ++ [symbolOpcode sym] =
      (s.1 ++ [sym]).map symbolOpcode := fun sym => by rw [List.map_append]; rfl
  cases sym with
  | atom a =>
    cases a with
    | number v => exact congrArg (fun out => Except.ok (out, _)) (happend (.atom (.number v)))
    | ident name => exact congrArg (fun out => Except.ok (out, _)) (happend (.atom (.ident name)))
  | un u => rfl
  | bin b =>
    have hpop := popOperators_map (F := F) b s.2
    have hstep : compileToken (compileState s) (b.token : Token F) =
        .ok (s.1.map symbolOpcode ++ (popOperators b.token (s.2.map opToken)).1,
          b.token :: (popOperators b.token (s.2.map opToken)).2) := by
      cases b <;> rfl
    rw [symbolToken, hstep, hpop]
    simp only [OpTree.shunt, compileState, List.map_append, List.map_map, List.map_cons]
    rfl

/-- Compiling the tokens of any symbols succeeds and writes the shunting yard's output. -/
theorem compileTokens_map (syms : List (Symbol F)) :
    compileTokens (syms.map symbolToken) =
      .ok ((OpTree.shuntingYard rulePrecedence syms).map symbolOpcode ++
        [.storeResult "result", .halt]) := by
  have hloop : ∀ s, (syms.map symbolToken).foldlM compileToken (compileState s) =
      .ok (compileState (syms.foldl (OpTree.shunt rulePrecedence) s)) := by
    induction syms with
    | nil => exact fun s => rfl
    | cons sym rest ih =>
      intro s
      rw [List.map_cons, List.foldlM_cons, compileToken_symbol]
      exact ih _
  unfold compileTokens
  have hstart : (([], []) : List (Opcode F) × List (Token F)) = compileState ([], []) := rfl
  rw [hstart, hloop]
  simp only [OpTree.shuntingYard, compileState, List.map_append, List.map_map]
  refine congrArg (fun code => Except.ok (_ ++ code ++ _)) ?_
  change List.map tokenToOpcode (List.map opToken _) = _
  rw [List.map_map]
  exact List.map_congr_left fun op _ => tokenToOpcode_opToken (F := F) op

/-- On a well-formed expression the compiler writes its stack code. -/
theorem compileTokens_tokens {e : Expr F} (h : e.WellFormed rulePrecedence) :
    compileTokens e.tokens =
      .ok (e.code.map symbolOpcode ++ [.storeResult "result", .halt]) := by
  rw [Expr.tokens, compileTokens_map, OpTree.shuntingYard_written h]

end Wardex.Policy
