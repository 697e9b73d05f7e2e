import Mathlib.Data.List.Basic

/-! The policy virtual machine, and the rule compiler: tokenizer, shunting yard, and the program it
writes.  Floating-point numbers are a type with the operations that the machine and the compiler
use, about which nothing is assumed. -/

namespace Wardex.Policy

section

/-- The `f64` operations in use; `parse` is `str::parse::<f64>`. -/
class F64 (F : Type) where
  zero : F
  one : F
  half : F
  epsilon : F
  add : F → F → F
  sub : F → F → F
  mul : F → F → F
  div : F → F → F
  abs : F → F
  gt : F → F → Bool
  lt : F → F → Bool
  ge : F → F → Bool
  le : F → F → Bool
  eq : F → F → Bool
  parse : String → Option F

inductive Opcode (F : Type) where
  | pushConst (v : F)
  | loadVar (name : String)
  | add
  | sub
  | mul
  | div
  | cmpGt
  | cmpLt
  | cmpGe
  | cmpLe
  | cmpEq
  | and
  | or
  | not
  | jumpIf (target : Nat)
  | jump (target : Nat)
  | storeResult (name : String)
  | halt
  | dup
  | pop
deriving DecidableEq

structure PolicyProgram (F : Type) where
  name : String
  version : Nat
  instructions : List (Opcode F)
  description : String
deriving DecidableEq

/-- A `HashMap<String, f64>` as the list of its entries, one for each key. -/
abbrev Bindings (F : Type) := List (String × F)

def Bindings.insert {F : Type} (m : Bindings F) (name : String) (v : F) : Bindings F :=
  (name, v) :: m.filter fun p => p.1 ≠ name

structure VmResult (F : Type) where
  success : Bool
  outputs : Bindings F
  stepsExecuted : Nat
  error : Option String
deriving DecidableEq

structure PolicyVm where
  maxSteps : Nat
  maxStack : Nat
deriving DecidableEq

/-- The local variables of `execute`; the top of the stack comes first. -/
structure VmState (F : Type) where
  stack : List F
  outputs : Bindings F
  pc : Nat
  steps : Nat
deriving DecidableEq

/-- What follows an instruction: the next turn of the loop, or the end with an error text,
none for `Halt`. -/
inductive Control where
  | next
  | exit (error : Option String)
deriving DecidableEq

variable {F : Type} [F64 F]

/-! ## Operations on values -/

def truth (b : Bool) : F := if b then F64.one else F64.zero

def isTrue (a : F) : Bool := F64.gt a F64.half

def cmpEq (a b : F) : F := truth (F64.lt (F64.abs (F64.sub a b)) F64.epsilon)

def logicalNot (a : F) : F := if isTrue a then F64.zero else F64.one

/-! ## Instructions -/

namespace VmState

def push (s : VmState F) (v : F) (stack : List F) : VmState F :=
  { s with stack := v :: stack, pc := s.pc + 1 }

/-- The operand order is that of `(stack.pop(), stack.pop())`: the second operand is on top. -/
def binary (s : VmState F) (name : String) (f : F → F → F) : VmState F × Control :=
  match s.stack with
  | b :: a :: stack => (s.push (f a b) stack, .next)
  | _ => ({ s with stack := [] }, .exit (some ("stack underflow in " ++ name)))

/-- One instruction of a program with `length` instructions. -/
def exec (length : Nat) (env : Bindings F) (s : VmState F) : Opcode F → VmState F × Control
  | .pushConst v => (s.push v s.stack, .next)
  | .loadVar name => (s.push ((env.lookup name).getD F64.zero) s.stack, .next)
  | .add => s.binary "Add" F64.add
  | .sub => s.binary "Sub" F64.sub
  | .mul => s.binary "Mul" F64.mul
  | .div =>
    match s.stack with
    | b :: a :: stack =>
      if F64.eq b F64.zero then ({ s with stack := stack }, .exit (some "division by zero"))
      else (s.push (F64.div a b) stack, .next)
    | _ => ({ s with stack := [] }, .exit (some "stack underflow in Div"))
  | .cmpGt => s.binary "CmpGt" fun a b => truth (F64.gt a b)
  | .cmpLt => s.binary "CmpLt" fun a b => truth (F64.lt a b)
  | .cmpGe => s.binary "CmpGe" fun a b => truth (F64.ge a b)
  | .cmpLe => s.binary "CmpLe" fun a b => truth (F64.le a b)
  | .cmpEq => s.binary "CmpEq" cmpEq
  | .and => s.binary "And" fun a b => truth (isTrue a && isTrue b)
  | .or => s.binary "Or" fun a b => truth (isTrue a || isTrue b)
  | .not =>
    match s.stack with
    | a :: stack => (s.push (logicalNot a) stack, .next)
    | [] => (s, .exit (some "stack underflow in Not"))
  | .jumpIf target =>
    match s.stack with
    | cond :: stack =>
      if isTrue cond then
        if target ≥ length then
          ({ s with stack := stack }, .exit (some "JumpIf target out of bounds"))
        else ({ s with stack := stack, pc := target }, .next)
      else ({ s with stack := stack, pc := s.pc + 1 }, .next)
    | [] => (s, .exit (some "stack underflow in JumpIf"))
  | .jump target =>
    if target ≥ length then (s, .exit (some "Jump target out of bounds"))
    else ({ s with pc := target }, .next)
  | .storeResult name =>
    match s.stack with
    | v :: stack =>
      ({ s with stack := stack, outputs := s.outputs.insert name v, pc := s.pc + 1 }, .next)
    | [] => ({ s with pc := s.pc + 1 }, .next)
  | .halt => (s, .exit none)
  | .dup =>
    match s.stack with
    | top :: stack => (s.push top (top :: stack), .next)
    | [] => (s, .exit (some "stack underflow in Dup"))
  | .pop =>
    match s.stack with
    | _ :: stack => ({ s with stack := stack, pc := s.pc + 1 }, .next)
    | [] => (s, .exit (some "stack underflow in Pop"))

end VmState

/-! ## The loop -/

namespace PolicyVm

/-- The loop with `remaining` steps left below `max_steps`: the state it ends in and the
error, if any. -/
def loop (vm : PolicyVm) (program : PolicyProgram F) (env : Bindings F) :
    Nat → VmState F → VmState F × Option String
  | 0, s =>
    if s.pc ≥ program.instructions.length then (s, none) else (s, some "step limit exceeded")
  | remaining + 1, s =>
    match program.instructions[s.pc]? with
    | none => (s, none)
    | some instr =>
      if s.stack.length > vm.maxStack then (s, some "stack overflow")
      else
        match VmState.exec program.instructions.length env
          { s with steps := s.steps + 1 } instr with
        | (s', .exit error) => (s', error)
        | (s', .next) => loop vm program env remaining s'

def initial : VmState F := { stack := [], outputs := [], pc := 0, steps := 0 }

/-- The whole run, with the stack that `execute` drops. -/
def run (vm : PolicyVm) (program : PolicyProgram F) (env : Bindings F) :
    VmState F × Option String := vm.loop program env vm.maxSteps initial

def execute (vm : PolicyVm) (program : PolicyProgram F) (env : Bindings F) : VmResult F :=
  let (s, error) := vm.run program env
  { success := error.isNone, outputs := s.outputs, stepsExecuted := s.steps, error := error }

end PolicyVm

end

/-! ## The rule compiler -/

inductive Token (F : Type) where
  | number (v : F)
  | ident (name : String)
  | op (c : Char)
  | gt
  | lt
  | ge
  | le
  | eq
  | and
  | or
  | not
deriving DecidableEq

variable {F : Type} [F64 F]

/-! ## Tokenizer -/

def isNumberChar (c : Char) : Bool := c.isDigit || c == '.'

def isWordStart (c : Char) : Bool := c.isAlpha || c == '_'

def isWordChar (c : Char) : Bool := c.isAlphanum || c == '_'

/-- Keywords are recognised in any case. -/
def wordToken (word : List Char) : Token F :=
  let upper := word.map Char.toUpper
  if upper = ['A', 'N', 'D'] then .and
  else if upper = ['O', 'R'] then .or
  else if upper = ['N', 'O', 'T'] then .not
  else .ident (String.ofList word)

/-- One turn of the loop at character `c` of position `i`: the token, if any, and how many
characters it takes beyond `c`. -/
def nextToken (i : Nat) (c : Char) (rest : List Char) : Except String (Option (Token F) × Nat) :=
  let followedByEq := rest.head? == some '='
  if c = ' ' ∨ c = '\t' ∨ c = '\n' then .ok (none, 0)
  else if c = '+' ∨ c = '-' ∨ c = '*' ∨ c = '/' then .ok (some (.op c), 0)
  else if c = '>' then
    if followedByEq then .ok (some .ge, 1) else .ok (some .gt, 0)
  else if c = '<' then
    if followedByEq then .ok (some .le, 1) else .ok (some .lt, 0)
  else if c = '=' then
    if followedByEq then .ok (some .eq, 1)
    else .error ("unexpected '=' at position " ++ toString i)
  else if isNumberChar c then
    let digits := rest.takeWhile isNumberChar
    match F64.parse (String.ofList (c :: digits)) with
    | some num => .ok (some (.number num), digits.length)
    | none => .error ("invalid number at position " ++ toString i)
  else if isWordStart c then
    let word := rest.takeWhile isWordChar
    .ok (some (wordToken (c :: word)), word.length)
  else
    .error ("unexpected character '" ++ String.singleton c ++ "' at position " ++ toString i)

def tokenizeFrom (i : Nat) : List Char → Except String (List (Token F))
  | [] => .ok []
  | c :: rest => do
    let (token, extra) ← nextToken i c rest
    let tokens ← tokenizeFrom (i + 1 + extra) (rest.drop extra)
    return token.toList ++ tokens
termination_by chars => chars.length
decreasing_by
  simp only [List.length_drop, List.length_cons]
  omega

def tokenize (expr : String) : Except String (List (Token F)) := tokenizeFrom 0 expr.toList

/-! ## Compiler -/

/-- Operator precedence, higher binds tighter. -/
def precedence : Token F → Nat
  | .or => 1
  | .and => 2
  | .not => 3
  | .gt | .lt | .ge | .le | .eq => 4
  | .op c => if c = '+' ∨ c = '-' then 5 else if c = '*' ∨ c = '/' then 6 else 0
  | _ => 0

def isOperator : Token F → Bool
  | .op _ | .gt | .lt | .ge | .le | .eq | .and | .or | .not => true
  | _ => false

def tokenToOpcode : Token F → Opcode F
  | .op c =>
    if c = '+' then .add else if c = '-' then .sub
    else if c = '*' then .mul else if c = '/' then .div else .halt
  | .gt => .cmpGt
  | .lt => .cmpLt
  | .ge => .cmpGe
  | .le => .cmpLe
  | .eq => .cmpEq
  | .and => .and
  | .or => .or
  | .not => .not
  | _ => .halt

/-- The inner loop, with the top of `op_stack` first: the operators popped for `tok`, as
code, and the stack left. -/
def popOperators (tok : Token F) : List (Token F) → List (Opcode F) × List (Token F)
  | [] => ([], [])
  | top :: rest =>
    if isOperator top ∧ precedence top ≥ precedence tok then
      let (popped, left) := popOperators tok rest
      (tokenToOpcode top :: popped, left)
    else ([], top :: rest)

/-- One turn of the loop over the tokens, on the output and the operator stack. -/
def compileToken (s : List (Opcode F) × List (Token F)) (tok : Token F) :
    Except String (List (Opcode F) × List (Token F)) :=
  match tok with
  | .number v => .ok (s.1 ++ [.pushConst v], s.2)
  | .ident name => .ok (s.1 ++ [.loadVar name], s.2)
  | .not => .ok (s.1, tok :: s.2)
  | _ =>
    if isOperator tok then
      let (popped, left) := popOperators tok s.2
      .ok (s.1 ++ popped, tok :: left)
    else .error "unexpected token in expression"

def compileTokens (tokens : List (Token F)) : Except String (List (Opcode F)) := do
  let (output, opStack) ← tokens.foldlM compileToken ([], [])
  return output ++ opStack.map tokenToOpcode ++ [.storeResult "result", .halt]

def compileRule (name expression : String) : Except String (PolicyProgram F) := do
  let tokens ← tokenize expression
  let instructions ← compileTokens tokens
  return {
    name := name
    version := 1
    instructions := instructions
    description := "compiled from: " ++ expression }

end Wardex.Policy
