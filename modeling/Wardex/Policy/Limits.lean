import Wardex.Policy.Correctness

/-! What the limits of the virtual machine guarantee. The stack is looked at before an instruction,
and not once more when the program ends. -/

namespace Wardex.Policy

variable {F : Type}

namespace Opcode

/-- The instruction leaves the stack one value higher. -/
def Grows (stack : List F) : Opcode F → Prop
  | pushConst _ => True
  | loadVar _ => True
  | dup => stack ≠ []
  | _ => False

end Opcode

/-- What one instruction does to the height of the stack: it goes to the next one with one value
more, or goes on or ends with no more than there were. -/
inductive Moves (s : VmState F) (instr : Opcode F) : VmState F × Control → Prop where
  | up (s' : VmState F) (grows : instr.Grows s.stack)
      (height : s'.stack.length = s.stack.length + 1) (pc : s'.pc = s.pc + 1)
      (steps : s'.steps = s.steps) : Moves s instr (s', .next)
  | level (x : VmState F × Control) (grows : ¬ instr.Grows s.stack)
      (height : x.1.stack.length ≤ s.stack.length) (steps : x.1.steps = s.steps) : Moves s instr x

namespace VmState

variable {s : VmState F} {instr : Opcode F}

theorem moves_binary (hgrows : ¬ instr.Grows s.stack) (name : String) (f : F → F → F) :
    Moves s instr (s.binary name f) := by
  unfold binary
  match hstack : s.stack with
  | b :: a :: stack => exact .level _ hgrows (by simp [push, hstack]) rfl
  | [_] => exact .level _ hgrows (Nat.zero_le _) rfl
  | [] => exact .level _ hgrows (Nat.zero_le _) rfl

variable [F64 F]

theorem moves_exec (length : Nat) (env : Bindings F) (s : VmState F) (instr : Opcode F) :
    Moves s instr (s.exec length env instr) := by
  cases instr with
  | pushConst v => exact .up _ trivial rfl rfl rfl
  | loadVar name => exact .up _ trivial rfl rfl rfl
  | add | sub | mul | cmpGt | cmpLt | cmpGe | cmpLe | cmpEq | and | or =>
    exact moves_binary id _ _
  | div =>
    unfold exec
    rcases hstack : s.stack with _ | ⟨b, _ | ⟨a, stack⟩⟩
    · exact .level _ id (Nat.zero_le _) rfl
    · exact .level _ id (Nat.zero_le _) rfl
    · dsimp only
      split_ifs
      · exact .level _ id (by simp [hstack]; omega) rfl
      · exact .level _ id (by simp [push, hstack]) rfl
  | not =>
    unfold exec
    cases hstack : s.stack with
    | cons a stack => exact .level _ id (by simp [push, hstack]) rfl
    | nil => exact .level _ id (Nat.le_refl _) rfl
  | jumpIf target =>
    unfold exec
    cases hstack : s.stack with
    | cons cond stack =>
      dsimp only
      split_ifs <;> exact .level _ id (by simp [hstack]) rfl
    | nil => exact .level _ id (Nat.le_refl _) rfl
  | jump target =>
    rw [exec]
    split_ifs <;> exact .level _ id (Nat.le_refl _) rfl
  | storeResult name =>
    rw [exec]
    cases hstack : s.stack with
    | cons v stack => exact .level _ id (by simp [hstack]) rfl
    | nil => exact .level _ id (by simp [hstack]) rfl
  | halt => exact .level _ id (Nat.le_refl _) rfl
  | dup =>
    unfold exec
    cases hstack : s.stack with
    | cons top stack =>
      exact .up _ (by simp [Opcode.Grows, hstack]) (by simp [push, hstack]) rfl rfl
    | nil => exact .level _ (by simp [Opcode.Grows, hstack]) (Nat.le_refl _) rfl
  | pop =>
    unfold exec
    cases hstack : s.stack with
    | cons top stack => exact .level _ id (by simp [hstack]) rfl
    | nil => exact .level _ id (Nat.le_refl _) rfl

end VmState

namespace PolicyVm

variable [F64 F] (vm : PolicyVm) (program : PolicyProgram F) (env : Bindings F)

/-- One turn of the loop: the step is counted and the instruction executed. -/
def turn (s : VmState F) (instr : Opcode F) : VmState F × Control :=
  VmState.exec program.instructions.length env { s with steps := s.steps + 1 } instr

/-- The states in which the loop executes an instruction. -/
def visited : Nat → VmState F → List (VmState F)
  | 0, _ => []
  | remaining + 1, s =>
    match program.instructions[s.pc]? with
    | none => []
    | some instr =>
      if s.stack.length > vm.maxStack then []
      else
        s :: match turn program env s instr with
        | (_, .exit _) => []
        | (s', .next) => visited remaining s'

/-- At most `max_steps` instructions of the program are executed, and a run that succeeds has never
more than `max_stack` values on its stack. -/
structure WithinLimits : Prop where
  steps : (vm.execute program env).stepsExecuted ≤ vm.maxSteps
  executed : (vm.visited program env vm.maxSteps initial).length =
    (vm.execute program env).stepsExecuted
  inBounds : ∀ s ∈ vm.visited program env vm.maxSteps initial,
    s.pc < program.instructions.length
  height : (vm.execute program env).success = true →
    ∀ s ∈ vm.visited program env vm.maxSteps initial ++ [(vm.run program env).1],
      s.stack.length ≤ vm.maxStack

/-- The last instruction of the program is about to put a value on a full stack. -/
def Overfills (s : VmState F) : Prop :=
  s.pc + 1 = program.instructions.length ∧ s.stack.length = vm.maxStack ∧
    ∃ instr, program.instructions[s.pc]? = some instr ∧ instr.Grows s.stack

theorem moves_turn (s : VmState F) (instr : Opcode F) :
    Moves { s with steps := s.steps + 1 } instr (turn program env s instr) :=
  VmState.moves_exec _ env _ instr

variable {program} (remaining : Nat) {s : VmState F}

theorem loop_zero : vm.loop program env 0 s =
    if s.pc ≥ program.instructions.length then (s, none)
    else (s, some "step limit exceeded") := rfl

theorem loop_none (hget : program.instructions[s.pc]? = none) :
    vm.loop program env remaining s = (s, none) ∧ vm.visited program env remaining s = [] := by
  cases remaining with
  | zero => exact ⟨if_pos (List.getElem?_eq_none_iff.mp hget), rfl⟩
  | succ remaining =>
    rw [loop, visited, hget]
    exact ⟨rfl, rfl⟩

theorem loop_some {instr : Opcode F} (hget : program.instructions[s.pc]? = some instr) :
    vm.loop program env (remaining + 1) s =
        (if s.stack.length > vm.maxStack then (s, some "stack overflow")
        else
          match turn program env s instr with
          | (s', .exit error) => (s', error)
          | (s', .next) => vm.loop program env remaining s') ∧
      vm.visited program env (remaining + 1) s =
        if s.stack.length > vm.maxStack then []
        else
          s :: match turn program env s instr with
          | (_, .exit _) => []
          | (s', .next) => vm.visited program env remaining s' := by
  rw [loop, visited, hget]
  exact ⟨rfl, rfl⟩

theorem loop_overflow (h : s.stack.length > vm.maxStack) {instr : Opcode F}
    (hget : program.instructions[s.pc]? = some instr) :
    vm.loop program env (remaining + 1) s = (s, some "stack overflow") ∧
      vm.visited program env (remaining + 1) s = [] := by
  obtain ⟨hloop, hvisited⟩ := loop_some vm env remaining hget
  exact ⟨hloop.trans (if_pos h), hvisited.trans (if_pos h)⟩

theorem loop_exec (h : s.stack.length ≤ vm.maxStack) {instr : Opcode F}
    (hget : program.instructions[s.pc]? = some instr) :
    vm.loop program env (remaining + 1) s =
        (match turn program env s instr with
        | (s', .exit error) => (s', error)
        | (s', .next) => vm.loop program env remaining s') ∧
      vm.visited program env (remaining + 1) s =
        s :: match turn program env s instr with
        | (_, .exit _) => []
        | (s', .next) => vm.visited program env remaining s' := by
  obtain ⟨hloop, hvisited⟩ := loop_some vm env remaining hget
  have hle := Nat.not_lt_of_le h
  exact ⟨hloop.trans (if_neg hle), hvisited.trans (if_neg hle)⟩

/-- Each step counted is an instruction executed. -/
theorem steps_loop (s : VmState F) :
    (vm.loop program env remaining s).1.steps =
        s.steps + (vm.visited program env remaining s).length ∧
      (vm.visited program env remaining s).length ≤ remaining := by
  induction remaining generalizing s with
  | zero =>
    rw [loop_zero]
    split_ifs <;> exact ⟨rfl, Nat.le_refl _⟩
  | succ remaining ih =>
    cases hget : program.instructions[s.pc]? with
    | none =>
      obtain ⟨hloop, hvisited⟩ := loop_none vm env (remaining + 1) hget
      rw [hloop, hvisited]
      exact ⟨rfl, Nat.zero_le _⟩
    | some instr =>
      by_cases hstack : s.stack.length > vm.maxStack
      · obtain ⟨hloop, hvisited⟩ := loop_overflow vm env remaining hstack hget
        rw [hloop, hvisited]
        exact ⟨rfl, Nat.zero_le _⟩
      · obtain ⟨hloop, hvisited⟩ :=
          loop_exec vm env remaining (Nat.le_of_not_lt hstack) hget
        rw [hloop, hvisited]
        have hmoves := moves_turn program env s instr
        generalize turn program env s instr = x at hmoves
        have hsteps : x.1.steps = s.steps + 1 := by
          cases hmoves with
          | up s' _ _ _ hsteps => exact hsteps
          | level _ _ _ hsteps => exact hsteps
        obtain ⟨s', control⟩ := x
        cases control with
        | exit error =>
          exact ⟨hsteps, Nat.succ_le_succ (Nat.zero_le _)⟩
        | next =>
          obtain ⟨hcount, hle⟩ := ih s'
          dsimp only at hsteps ⊢
          rw [hcount, hsteps, List.length_cons]
          omega

variable {vm env remaining}

/-- A state the loop executes an instruction in holds no more than the limit. -/
theorem of_mem_visited {t : VmState F} (ht : t ∈ vm.visited program env remaining s) :
    t.pc < program.instructions.length ∧ t.stack.length ≤ vm.maxStack := by
  induction remaining generalizing s with
  | zero => exact absurd ht List.not_mem_nil
  | succ remaining ih =>
    cases hget : program.instructions[s.pc]? with
    | none =>
      rw [(loop_none vm env _ hget).2] at ht
      exact absurd ht List.not_mem_nil
    | some instr =>
      rw [(loop_some vm env remaining hget).2] at ht
      split_ifs at ht with hstack
      · exact absurd ht List.not_mem_nil
      obtain rfl | ht := List.mem_cons.mp ht
      · exact ⟨(List.getElem?_eq_some_iff.mp hget).1, Nat.le_of_not_lt hstack⟩
      split at ht
      · exact absurd ht List.not_mem_nil
      · exact ih ht

/-- The stack at the end of a run that succeeds is within the limit, or the last instruction of the
program has just been executed on a full stack. -/
theorem height_loop (hend : s.pc ≥ program.instructions.length → s.stack.length ≤ vm.maxStack)
    (hsuccess : (vm.loop program env remaining s).2 = none) :
    (vm.loop program env remaining s).1.stack.length ≤ vm.maxStack ↔
      ∀ t ∈ vm.visited program env remaining s, ¬ Overfills vm program t := by
  induction remaining generalizing s with
  | zero =>
    by_cases hpc : s.pc ≥ program.instructions.length
    · rw [(loop_none vm env _ (List.getElem?_eq_none hpc)).1]
      exact iff_of_true (hend hpc) (fun t ht => absurd ht List.not_mem_nil)
    · rw [loop_zero, if_neg hpc] at hsuccess
      cases hsuccess
  | succ remaining ih =>
    cases hget : program.instructions[s.pc]? with
    | none =>
      obtain ⟨hloop, hvisited⟩ := loop_none vm env (remaining + 1) hget
      rw [hloop, hvisited]
      exact iff_of_true (hend (List.getElem?_eq_none_iff.mp hget))
        fun t ht => absurd ht List.not_mem_nil
    | some instr =>
      by_cases hstack : s.stack.length > vm.maxStack
      · rw [(loop_overflow vm env _ hstack hget).1] at hsuccess
        cases hsuccess
      obtain ⟨hloop, hvisited⟩ :=
        loop_exec vm env remaining (Nat.le_of_not_lt hstack) hget
      have hoverfills : Overfills vm program s ↔
          s.pc + 1 = program.instructions.length ∧ s.stack.length = vm.maxStack ∧
            instr.Grows s.stack := by simp [Overfills, hget]
      have hmoves := moves_turn program env s instr
      rw [hloop] at hsuccess ⊢
      rw [hvisited, List.forall_mem_cons, hoverfills]
      generalize turn program env s instr = x at hmoves hsuccess ⊢
      have hpc := (List.getElem?_eq_some_iff.mp hget).1
      cases hmoves with
      | up s' hgrows hheight hnext _ =>
        dsimp only at hgrows hheight hnext hsuccess ⊢
        by_cases hover : s.pc + 1 = program.instructions.length ∧ s.stack.length = vm.maxStack
        · -- the program ends here, and nothing looks at the stack again
          have hend' : program.instructions[s'.pc]? = none :=
            List.getElem?_eq_none (Nat.le_of_eq (hnext.trans hover.1).symm)
          rw [(loop_none vm env _ hend').1]
          refine iff_of_false ?_ fun h => h.1 ⟨hover.1, hover.2, hgrows⟩
          rw [hheight, hover.2]
          exact Nat.not_succ_le_self _
        · rw [ih (fun hpc' => ?_) hsuccess]
          · exact (and_iff_right fun h => hover ⟨h.1, h.2.1⟩).symm
          · rw [hnext] at hpc'
            rw [hheight]
            have hne : s.stack.length ≠ vm.maxStack := fun h => hover ⟨Nat.le_antisymm hpc hpc', h⟩
            exact Nat.lt_of_le_of_ne (Nat.le_of_not_lt hstack) hne
      | level _ hgrows hheight _ =>
        obtain ⟨s', control⟩ := x
        have hle : s'.stack.length ≤ vm.maxStack := Nat.le_trans hheight (Nat.le_of_not_lt hstack)
        have hnot : ¬ (s.pc + 1 = program.instructions.length ∧ s.stack.length = vm.maxStack ∧
            instr.Grows s.stack) := fun h => hgrows h.2.2
        rw [and_iff_right hnot]
        cases control with
        | exit error => exact iff_of_true hle fun t ht => absurd ht List.not_mem_nil
        | next => exact ih (fun _ => hle) hsuccess

/-- A run that puts a value on a full stack with its last instruction succeeds. -/
theorem loop_of_overfills {t : VmState F} (ht : t ∈ vm.visited program env remaining s)
    (hover : Overfills vm program t) : (vm.loop program env remaining s).2 = none := by
  induction remaining generalizing s with
  | zero => exact absurd ht List.not_mem_nil
  | succ remaining ih =>
    cases hget : program.instructions[s.pc]? with
    | none =>
      rw [(loop_none vm env _ hget).2] at ht
      exact absurd ht List.not_mem_nil
    | some instr =>
      by_cases hstack : s.stack.length > vm.maxStack
      · rw [(loop_overflow vm env _ hstack hget).2] at ht
        exact absurd ht List.not_mem_nil
      obtain ⟨hloop, hvisited⟩ :=
        loop_exec vm env remaining (Nat.le_of_not_lt hstack) hget
      have hmoves := moves_turn program env s instr
      rw [hvisited] at ht
      rw [hloop]
      generalize turn program env s instr = x at hmoves ht ⊢
      obtain rfl | ht := List.mem_cons.mp ht
      · obtain ⟨hlast, -, instr', hget', hgrows⟩ := hover
        obtain rfl : instr = instr' := Option.some.inj (hget.symm.trans hget')
        cases hmoves with
        | up s' _ _ hnext _ =>
          have hend : program.instructions[s'.pc]? = none :=
            List.getElem?_eq_none (Nat.le_of_eq (hnext.trans hlast).symm)
          exact congrArg Prod.snd (loop_none vm env _ hend).1
        | level _ hgrows' _ _ => exact absurd hgrows hgrows'
      · obtain ⟨s', control⟩ := x
        cases control with
        | exit error => exact absurd ht List.not_mem_nil
        | next => exact ih ht

variable (vm program env)

/-- The limits hold for a run exactly when it never executes the last instruction of the program to
put a value on a full stack: the loop ends after that one, before it looks at the stack again. -/
theorem withinLimits_iff : vm.WithinLimits program env ↔
    ∀ s ∈ vm.visited program env vm.maxSteps initial, ¬ Overfills vm program s := by
  have hsteps : (vm.run program env).1.steps = 0 + _ ∧ _ := steps_loop vm env vm.maxSteps initial
  have hexecuted : (vm.execute program env).stepsExecuted =
      (vm.visited program env vm.maxSteps initial).length := hsteps.1.trans (Nat.zero_add _)
  have hheight (hsuccess : (vm.run program env).2 = none) :
      (vm.run program env).1.stack.length ≤ vm.maxStack ↔ _ :=
    height_loop (fun _ => Nat.zero_le _) hsuccess
  constructor
  · intro h s hs hover
    have hsuccess : (vm.run program env).2 = none := loop_of_overfills hs hover
    refine (hheight hsuccess).mp (h.height ?_ _ ?_) s hs hover
    · exact Option.isNone_iff_eq_none.mpr hsuccess
    · exact List.mem_append_right _ List.mem_cons_self
  · intro h
    refine ⟨hexecuted ▸ hsteps.2, hexecuted.symm, fun s hs => (of_mem_visited hs).1, ?_⟩
    intro hsuccess s hs
    obtain hs | hs := List.mem_append.mp hs
    · exact (of_mem_visited hs).2
    · rw [List.mem_singleton.mp hs]
      exact (hheight (Option.isNone_iff_eq_none.mp hsuccess)).mpr h

/-- A third value on a stack of two: no one looks. -/
theorem third_value_fits : ¬ (⟨10, 2⟩ : PolicyVm).WithinLimits
    (⟨"dup", 1, [.pushConst (1 : ℚ), .dup, .dup], ""⟩ : PolicyProgram ℚ) [] := by
  intro h
  exact absurd (h.height (by decide) _ (List.mem_append_right _ List.mem_cons_self)) (by decide)

end PolicyVm

end Wardex.Policy
