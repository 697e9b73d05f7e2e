import Mathlib.Algebra.Group.Nat.Defs
import Mathlib.Algebra.Order.Ring.Unbundled.Rat
import Mathlib.Data.Rat.Defs
import Wardex.Policy.Grammar

/-! Running compiled rules: the machine computes the value of the expression, or stops at
a division by zero, unless one of its limits stops it first. -/

namespace Wardex.Policy

open Wardex.Lib

variable {F : Type} [F64 F]

/-- A run that ended at one of the machine's limits. -/
def LimitHit (x : VmState F × Option String) : Prop :=
  x.2 = some "step limit exceeded" ∨ x.2 = some "stack overflow"

namespace PolicyVm

variable (vm : PolicyVm) {program : PolicyProgram F} (env : Bindings F) {s s' s'' : VmState F}

/-- Short of a limit, the loop gets from `s` to `s'`. -/
def Reaches (program : PolicyProgram F) (s s' : VmState F) : Prop :=
  ∀ n, LimitHit (vm.loop program env n s) ∨
    ∃ m, vm.loop program env n s = vm.loop program env m s'

/-- Short of a limit, the loop started in `s` ends with `x`. -/
def Ends (program : PolicyProgram F) (s : VmState F) (x : VmState F × Option String) : Prop :=
  ∀ n, LimitHit (vm.loop program env n s) ∨ vm.loop program env n s = x

variable {vm env}

theorem Reaches.trans (h : vm.Reaches env program s s') (h' : vm.Reaches env program s' s'') :
    vm.Reaches env program s s'' := by
  intro n
  rcases h n with hl | ⟨m, he⟩
  · exact Or.inl hl
  · rw [he]
    exact h' m

theorem Reaches.ends (h : vm.Reaches env program s s') {x : VmState F × Option String}
    (h' : vm.Ends env program s' x) : vm.Ends env program s x := by
  intro n
  rcases h n with hl | ⟨m, he⟩
  · exact Or.inl hl
  · rw [he]
    exact h' m

variable (vm env)

/-- One turn of the loop. -/
theorem loop_turn {instr : Opcode F} (hget : program.instructions[s.pc]? = some instr) (n : Nat) :
    LimitHit (vm.loop program env n s) ∨ ∃ m, vm.loop program env n s =
      match VmState.exec program.instructions.length env { s with steps := s.steps + 1 } instr with
      | (s', .exit error) => (s', error)
      | (s', .next) => vm.loop program env m s' := by
  cases n with
  | zero =>
    left
    have hlt : s.pc < program.instructions.length := (List.getElem?_eq_some_iff.mp hget).1
    rw [loop, if_neg (by omega)]
    exact Or.inl rfl
  | succ n =>
    rw [loop]
    simp only [hget]
    by_cases hstack : s.stack.length > vm.maxStack
    · rw [if_pos hstack]
      exact Or.inl (Or.inr rfl)
    · rw [if_neg hstack]
      exact Or.inr ⟨n, rfl⟩

theorem reaches_of_next {instr : Opcode F} (hget : program.instructions[s.pc]? = some instr)
    (hexec : VmState.exec program.instructions.length env { s with steps := s.steps + 1 } instr =
      (s', .next)) : vm.Reaches env program s s' := by
  intro n
  rcases loop_turn vm env hget n with hl | ⟨m, he⟩
  · exact Or.inl hl
  · rw [hexec] at he
    exact Or.inr ⟨m, he⟩

theorem ends_of_exit {instr : Opcode F} {error : Option String}
    (hget : program.instructions[s.pc]? = some instr)
    (hexec : VmState.exec program.instructions.length env { s with steps := s.steps + 1 } instr =
      (s', .exit error)) : vm.Ends env program s (s', error) := by
  intro n
  rcases loop_turn vm env hget n with hl | ⟨m, he⟩
  · exact Or.inl hl
  · rw [hexec] at he
    exact Or.inr he

end PolicyVm

/-! ## Stack code -/

/-- The state after `k` instructions that leave `v` on top of the stack. -/
def VmState.advance (s : VmState F) (v : F) (k : Nat) : VmState F :=
  { s with stack := v :: s.stack, pc := s.pc + k, steps := s.steps + k }

theorem getElem?_of_drop {α : Type*} {l rest : List α} {k : Nat} {a : α}
    (h : l.drop k = a :: rest) : l[k]? = some a := by
  have h0 := congrArg (fun l : List α => l[0]?) h
  simpa using h0

theorem drop_of_drop {α : Type*} {l as rest : List α} {k : Nat} (h : l.drop k = as ++ rest) :
    l.drop (k + as.length) = rest := by
  rw [← List.drop_drop, h, List.drop_left]

omit [F64 F] in
theorem VmState.binary_cons {s : VmState F} {x y : F} {stack : List F}
    (hstack : s.stack = y :: x :: stack) (name : String) (f : F → F → F) :
    s.binary name f = (s.push (f x y) stack, .next) := by
  simp only [binary, hstack]

/-- A binary opcode pops both operands and applies its operator. -/
theorem exec_binOp (length : Nat) (env : Bindings F) {s : VmState F} {x y : F} {stack : List F}
    (hstack : s.stack = y :: x :: stack) (b : BinOp) :
    VmState.exec length env s b.opcode =
      match b.apply x y with
      | some v => (s.push v stack, .next)
      | none => ({ s with stack := stack }, .exit (some "division by zero")) := by
  cases b with
  | div =>
    simp only [BinOp.opcode, VmState.exec, hstack, BinOp.apply]
    split_ifs <;> rfl
  | _ => exact VmState.binary_cons hstack _ _

/-- The code of an expression, wherever it stands in the program, pushes the expression's
value or stops at a division by zero. -/
theorem reaches_code (vm : PolicyVm) (env : Bindings F) {program : PolicyProgram F} (e : Expr F)
    {s : VmState F} {rest : List (Opcode F)}
    (h : program.instructions.drop s.pc = e.code.map symbolOpcode ++ rest) :
    match eval env e with
    | some v => vm.Reaches env program s (s.advance v e.code.length)
    | none => ∃ s', vm.Ends env program s (s', some "division by zero") := by
  induction e generalizing s rest with
  | atom a =>
    have hget := getElem?_of_drop h
    cases a <;> exact PolicyVm.reaches_of_next vm env hget rfl
  | un u e ih =>
    rw [OpTree.code, List.map_append, List.append_assoc] at h
    have he := ih h
    have hget := getElem?_of_drop (drop_of_drop h)
    rw [List.length_map] at hget
    rw [eval]
    cases hv : eval env e with
    | none => rwa [hv] at he
    | some v =>
      rw [hv] at he
      refine he.trans (PolicyVm.reaches_of_next vm env hget ?_)
      simp only [VmState.advance, symbolOpcode, VmState.exec, VmState.push, OpTree.code,
        List.length_append, List.length_singleton, Nat.add_assoc]
  | bin b l r ihl ihr =>
    rw [OpTree.code, List.map_append, List.map_append, List.append_assoc, List.append_assoc] at h
    have hl := ihl h
    have hdropl := drop_of_drop h
    rw [List.length_map] at hdropl
    rw [eval]
    cases hx : eval env l with
    | none => rwa [hx] at hl
    | some x =>
      rw [hx] at hl
      have hr := ihr (s := s.advance x l.code.length) hdropl
      have hget := getElem?_of_drop (drop_of_drop hdropl)
      rw [List.length_map] at hget
      simp only [Option.bind_eq_bind, Option.bind_some]
      cases hy : eval env r with
      | none =>
        rw [hy] at hr
        obtain ⟨s', hs'⟩ := hr
        exact ⟨s', hl.ends hs'⟩
      | some y =>
        rw [hy] at hr
        have hexec := exec_binOp program.instructions.length env
          (s := { (s.advance x l.code.length).advance y r.code.length with
            steps := ((s.advance x l.code.length).advance y r.code.length).steps + 1 }) rfl b
        simp only [Option.bind_some]
        cases hv : b.apply x y with
        | none =>
          rw [hv] at hexec
          exact ⟨_, (hl.trans hr).ends (PolicyVm.ends_of_exit vm env hget hexec)⟩
        | some v =>
          rw [hv] at hexec
          refine (hl.trans hr).trans (PolicyVm.reaches_of_next vm env hget (hexec.trans ?_))
          simp only [VmState.advance, VmState.push, OpTree.code, List.length_append,
            List.length_singleton, Nat.add_assoc]

/-- The compiled program ends with the value of the expression as its only output and an
empty stack. -/
theorem run_code (vm : PolicyVm) (env : Bindings F) {program : PolicyProgram F} {e : Expr F}
    (h : program.instructions = e.code.map symbolOpcode ++ [.storeResult "result", .halt]) :
    LimitHit (vm.run program env) ∨
      match eval env e with
      | some v => (vm.run program env).2 = none ∧
          (vm.run program env).1.outputs = [("result", v)] ∧ (vm.run program env).1.stack = []
      | none => (vm.run program env).2 = some "division by zero" := by
  have hdrop : program.instructions.drop (PolicyVm.initial : VmState F).pc =
      e.code.map symbolOpcode ++ [.storeResult "result", .halt] := h
  have hcode := reaches_code vm env e hdrop
  have hstore := drop_of_drop hdrop
  rw [List.length_map] at hstore
  have hhalt : program.instructions.drop
      ((PolicyVm.initial : VmState F).pc + e.code.length + 1) = [.halt] := by
    rw [← List.drop_drop, hstore]
    rfl
  cases hv : eval env e with
  | none =>
    rw [hv] at hcode
    obtain ⟨s', hs'⟩ := hcode
    exact (hs' vm.maxSteps).imp_right fun he => by rw [PolicyVm.run, he]
  | some v =>
    rw [hv] at hcode
    have hstored := hcode.trans
      (PolicyVm.reaches_of_next vm env (getElem?_of_drop hstore) rfl)
    have hended := hstored.ends (PolicyVm.ends_of_exit vm env (getElem?_of_drop hhalt) rfl)
    exact (hended vm.maxSteps).imp_right fun he => by
      rw [PolicyVm.run, he]
      exact ⟨rfl, rfl, rfl⟩

theorem exists_program {expression : String} {tokens : List (Token F)}
    (h : tokenize expression = .ok tokens) (name : String) {code : List (Opcode F)}
    (hcode : compileTokens tokens = .ok code) :
    ∃ program, compileRule name expression = .ok program ∧ program.instructions = code := by
  refine ⟨⟨name, 1, code, "compiled from: " ++ expression⟩, ?_, rfl⟩
  rw [compileRule, h]
  change (compileTokens tokens >>= _) = _
  rw [hcode]
  rfl

def decimalValue (digits : List Char) : Nat :=
  digits.foldl (fun n c => 10 * n + (c.toNat - '0'.toNat)) 0

/-- Digits with at most one point among them, and at least one digit. -/
def parseDecimal (s : String) : Option ℚ :=
  let whole := s.toList.takeWhile Char.isDigit
  match s.toList.dropWhile Char.isDigit with
  | [] => if whole.isEmpty then none else some (decimalValue whole)
  | c :: fraction =>
    if c = '.' ∧ fraction.all Char.isDigit ∧ ¬(whole ++ fraction).isEmpty then
      some (decimalValue whole + decimalValue fraction / (10 ^ fraction.length : Nat))
    else none

instance : F64 ℚ where
  zero := 0
  one := 1
  half := 1 / 2
  epsilon := 1 / 2 ^ 52
  add := (· + ·)
  sub := (· - ·)
  mul := (· * ·)
  div := (· / ·)
  abs a := max a (-a)
  gt a b := a > b
  lt a b := a < b
  ge a b := a ≥ b
  le a b := a ≤ b
  eq a b := a == b
  parse := parseDecimal

end Wardex.Policy
