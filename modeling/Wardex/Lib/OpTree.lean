import Mathlib.Data.List.Basic
import Mathlib.Data.List.TakeWhile
import Mathlib.Tactic.Common

/-! Operator precedence: syntax trees over atoms, unary operators written in front and
binary operators written in between, the trees that a written form stands for, and the
shunting-yard translation to stack code. -/

namespace Wardex.Lib

/-- A symbol of the written form, and of the stack code. -/
inductive Sym (α υ β : Type*) where
  | atom (a : α)
  | un (u : υ)
  | bin (b : β)
deriving DecidableEq

inductive OpTree (α υ β : Type*) where
  | atom (a : α)
  | un (u : υ) (e : OpTree α υ β)
  | bin (b : β) (l r : OpTree α υ β)
deriving DecidableEq

/-- Binding strengths, the larger the tighter. -/
structure Precedence (υ β : Type*) where
  un : υ → Nat
  bin : β → Nat

namespace OpTree

variable {α υ β : Type*}

def written : OpTree α υ β → List (Sym α υ β)
  | atom a => [.atom a]
  | un u e => .un u :: e.written
  | bin b l r => l.written ++ .bin b :: r.written

/-- Operands before their operator. -/
def code : OpTree α υ β → List (Sym α υ β)
  | atom a => [.atom a]
  | un u e => e.code ++ [.un u]
  | bin b l r => l.code ++ r.code ++ [.bin b]

variable (prec : Precedence υ β)

/-- Nothing on the left edge gives its first operand to an operator of level `p` before it. -/
def LeftAbove (p : Nat) : OpTree α υ β → Prop
  | bin b l _ => p < prec.bin b ∧ LeftAbove p l
  | _ => True

/-- Nothing on the right edge reaches over an operator of level `p` after it. -/
def RightAbove (p : Nat) : OpTree α υ β → Prop
  | atom _ => True
  | un u e => p ≤ prec.un u ∧ RightAbove p e
  | bin b _ r => p ≤ prec.bin b ∧ RightAbove p r

/-- The trees that are read back from what is written: binary operators associate to the
left, and a unary one takes all that binds tighter. -/
def WellFormed : OpTree α υ β → Prop
  | atom _ => True
  | un u e => e.WellFormed ∧ e.LeftAbove prec (prec.un u)
  | bin b l r => l.WellFormed ∧ r.WellFormed ∧ l.RightAbove prec (prec.bin b) ∧
      r.LeftAbove prec (prec.bin b)

/-- The layered grammar: on layer `n` nothing binds looser than `n`, and the right operand
of a binary operator comes from the layer above the operator's. -/
inductive Layered : Nat → OpTree α υ β → Prop
  | atom {n : Nat} {a : α} : Layered n (atom a)
  | un {n : Nat} {u : υ} {e : OpTree α υ β} (hn : n ≤ prec.un u)
      (he : Layered (prec.un u) e) : Layered n (un u e)
  | bin {n : Nat} {b : β} {l r : OpTree α υ β} (hn : n ≤ prec.bin b)
      (hl : Layered (prec.bin b) l) (hr : Layered (prec.bin b + 1) r) : Layered n (bin b l r)

/-! ## Shunting yard -/

/-- The level of an operator on the operator stack. -/
def level : υ ⊕ β → Nat := Sum.elim prec.un prec.bin

def opSym : υ ⊕ β → Sym α υ β := Sum.elim .un .bin

/-- One symbol read, from the output so far and the operator stack, innermost first. -/
def shunt (s : List (Sym α υ β) × List (υ ⊕ β)) : Sym α υ β → List (Sym α υ β) × List (υ ⊕ β)
  | .atom a => (s.1 ++ [.atom a], s.2)
  | .un u => (s.1, .inl u :: s.2)
  | .bin b =>
    let keep := fun op => decide (prec.bin b ≤ level prec op)
    (s.1 ++ (s.2.takeWhile keep).map opSym, .inr b :: s.2.dropWhile keep)

def shuntingYard (syms : List (Sym α υ β)) : List (Sym α υ β) :=
  let s := syms.foldl (shunt prec) ([], [])
  s.1 ++ s.2.map opSym

/-- The operators on the right edge, innermost first: they wait until the tree ends. -/
def pending : OpTree α υ β → List (υ ⊕ β)
  | atom _ => []
  | un u e => e.pending ++ [.inl u]
  | bin b _ r => r.pending ++ [.inr b]

/-- The code that does not have to wait. -/
def emitted : OpTree α υ β → List (Sym α υ β)
  | atom a => [.atom a]
  | un _ e => e.emitted
  | bin _ l r => l.code ++ r.emitted

theorem emitted_append_pending (t : OpTree α υ β) : t.emitted ++ t.pending.map opSym = t.code := by
  induction t with
  | atom a => rfl
  | un u e ih => rw [emitted, pending, List.map_append, ← List.append_assoc, ih]; rfl
  | bin b l r _ ihr =>
    rw [emitted, pending, List.map_append, ← List.append_assoc, List.append_assoc l.code, ihr]
    rfl

variable {prec}

theorem Layered.leftAbove {n p : Nat} {t : OpTree α υ β} (h : Layered prec n t) (hp : p < n) :
    t.LeftAbove prec p := by
  induction h with
  | atom => trivial
  | un => trivial
  | bin hn _ _ ihl _ => exact ⟨hp.trans_le hn, ihl (hp.trans_le hn)⟩

theorem Layered.rightAbove {n p : Nat} {t : OpTree α υ β} (h : Layered prec n t) (hp : p ≤ n) :
    t.RightAbove prec p := by
  induction h with
  | atom => trivial
  | un hn _ ih => exact ⟨hp.trans hn, ih (hp.trans hn)⟩
  | bin hn _ _ _ ihr => exact ⟨hp.trans hn, ihr (by omega)⟩

/-- Where unary and binary operators have layers of their own, the layered grammar derives
well-formed trees only. -/
theorem Layered.wellFormed (hsep : ∀ u b, prec.un u ≠ prec.bin b) {n : Nat} {t : OpTree α υ β}
    (h : Layered prec n t) : t.WellFormed prec := by
  induction h with
  | atom => trivial
  | @un n u e hn he ih =>
    refine ⟨ih, ?_⟩
    cases he with
    | atom => trivial
    | un => trivial
    | bin hle hl _ =>
      have hlt := lt_of_le_of_ne hle (hsep _ _)
      exact ⟨hlt, hl.leftAbove hlt⟩
  | bin _ hl hr ihl ihr => exact ⟨ihl, ihr, hl.rightAbove le_rfl, hr.leftAbove (Nat.lt_succ_self _)⟩

theorem le_level_of_pending {p : Nat} {t : OpTree α υ β} (h : t.RightAbove prec p) :
    ∀ op ∈ t.pending, p ≤ level prec op := by
  induction t with
  | atom a => simp [pending]
  | un u e ih =>
    intro op hop
    rcases List.mem_append.mp hop with hin | hin
    · exact ih h.2 op hin
    · obtain rfl := List.mem_singleton.mp hin
      exact h.1
  | bin b l r _ ihr =>
    intro op hop
    rcases List.mem_append.mp hop with hin | hin
    · exact ihr h.2 op hin
    · obtain rfl := List.mem_singleton.mp hin
      exact h.1

/-- An arriving operator takes the waiting ones of its left operand off the stack, and
no others. -/
theorem shunt_bin {out : List (Sym α υ β)} {waiting stack : List (υ ⊕ β)} {b : β}
    (hwaiting : ∀ op ∈ waiting, prec.bin b ≤ level prec op)
    (hstack : ∀ top ∈ stack.head?, level prec top < prec.bin b) :
    shunt prec (out, waiting ++ stack) (.bin b) =
      (out ++ waiting.map opSym, .inr b :: stack) := by
  have hpop : ∀ op ∈ waiting, decide (prec.bin b ≤ level prec op) = true :=
    fun op hop => decide_eq_true (hwaiting op hop)
  have hstop : stack.takeWhile (fun op => decide (prec.bin b ≤ level prec op)) = [] ∧
      stack.dropWhile (fun op => decide (prec.bin b ≤ level prec op)) = stack := by
    cases stack with
    | nil => exact ⟨rfl, rfl⟩
    | cons top rest =>
      have hno : ¬ (decide (prec.bin b ≤ level prec top) = true) := by
        have := hstack top rfl
        simp only [decide_eq_true_eq]
        omega
      exact ⟨List.takeWhile_cons_of_neg hno, List.dropWhile_cons_of_neg hno⟩
  simp only [shunt]
  rw [List.takeWhile_append_of_pos hpop, List.dropWhile_append_of_pos hpop, hstop.1, hstop.2,
    List.append_nil]

/-- Reading a well-formed tree over a stack that leaves it whole: the invariant of the
shunting yard. -/
theorem foldl_shunt_written {t : OpTree α υ β} (h : t.WellFormed prec)
    {out : List (Sym α υ β)} {stack : List (υ ⊕ β)}
    (hstack : ∀ top ∈ stack.head?, t.LeftAbove prec (level prec top)) :
    t.written.foldl (shunt prec) (out, stack) = (out ++ t.emitted, t.pending ++ stack) := by
  induction t generalizing out stack with
  | atom a => rfl
  | un u e ih =>
    rw [written, List.foldl_cons, shunt, ih h.1 (fun top htop => ?_), emitted, pending,
      List.append_assoc]
    · rfl
    · cases htop
      exact h.2
  | bin b l r ihl ihr =>
    obtain ⟨hl, hr, hright, hleft⟩ := h
    rw [written, List.foldl_append, ihl hl (fun top htop => (hstack top htop).2),
      List.foldl_cons, shunt_bin (le_level_of_pending hright) (fun top htop => (hstack top htop).1),
      ihr hr (fun top htop => ?_), emitted, pending, List.append_assoc out, emitted_append_pending,
      List.append_assoc, List.append_assoc]
    · rfl
    · cases htop
      exact hleft

theorem shuntingYard_written {t : OpTree α υ β} (h : t.WellFormed prec) :
    shuntingYard prec t.written = t.code := by
  unfold shuntingYard
  rw [foldl_shunt_written h (fun top htop => by cases htop), List.append_nil]
  exact emitted_append_pending t

/-! ## Reading code back -/

/-- Stack code run on trees. -/
def rebuild : List (Sym α υ β) → List (OpTree α υ β) → Option (List (OpTree α υ β))
  | [], stack => some stack
  | .atom a :: rest, stack => rebuild rest (atom a :: stack)
  | .un u :: rest, e :: stack => rebuild rest (un u e :: stack)
  | .bin b :: rest, r :: l :: stack => rebuild rest (bin b l r :: stack)
  | _, _ => none

theorem rebuild_code (t : OpTree α υ β) (rest : List (Sym α υ β)) (stack : List (OpTree α υ β)) :
    rebuild (t.code ++ rest) stack = rebuild rest (t :: stack) := by
  induction t generalizing rest stack with
  | atom a => rfl
  | un u e ih =>
    rw [code, List.append_assoc, ih]
    rfl
  | bin b l r ihl ihr =>
    rw [code, List.append_assoc, List.append_assoc, ihl, ihr]
    rfl

theorem code_injective : Function.Injective (code : OpTree α υ β → List (Sym α υ β)) := by
  intro t t' h
  have ht := rebuild_code t [] []
  rw [h, rebuild_code] at ht
  exact (List.cons.inj (Option.some.inj ht)).1.symm

/-- What is written determines the tree. -/
theorem WellFormed.written_inj {t t' : OpTree α υ β} (h : t.WellFormed prec)
    (h' : t'.WellFormed prec) (he : t.written = t'.written) : t = t' := by
  refine code_injective ?_
  rw [← shuntingYard_written h, he, shuntingYard_written h']

/-! ## What can be written -/

mutual

/-- The symbols start where an operand is expected. -/
def expectsOperand : List (Sym α υ β) → Bool
  | .atom _ :: rest => expectsOperator rest
  | .un _ :: rest => expectsOperand rest
  | _ => false

/-- The symbols start right after an operand. -/
def expectsOperator : List (Sym α υ β) → Bool
  | [] => true
  | .bin _ :: rest => expectsOperand rest
  | _ => false

end

theorem expectsOperand_written (t : OpTree α υ β) (rest : List (Sym α υ β)) :
    expectsOperand (t.written ++ rest) = expectsOperator rest := by
  induction t generalizing rest with
  | atom a => rw [written, List.singleton_append, expectsOperand]
  | un u e ih => rw [written, List.cons_append, expectsOperand, ih]
  | bin b l r ihl ihr =>
    rw [written, List.append_assoc, ihl, List.cons_append, expectsOperator, ihr]

/-- An operator and an operand written after a tree go to its right edge, as low as the
operator may reach. -/
theorem exists_attach {t e : OpTree α υ β} (b : β) (ht : t.WellFormed prec)
    (he : e.WellFormed prec) (hleft : ∀ p, e.LeftAbove prec p) :
    ∃ t' : OpTree α υ β, t'.WellFormed prec ∧ t'.written = t.written ++ .bin b :: e.written ∧
      ∀ p, t.LeftAbove prec p → (t.RightAbove prec (prec.bin b) → p < prec.bin b) →
        t'.LeftAbove prec p := by
  by_cases hright : t.RightAbove prec (prec.bin b)
  · exact ⟨bin b t e, ⟨ht, he, hright, hleft _⟩, rfl, fun p hl hlt => ⟨hlt hright, hl⟩⟩
  induction t with
  | atom a => exact absurd trivial hright
  | un u t ih =>
    by_cases hin : t.RightAbove prec (prec.bin b)
    · have hlt : prec.un u < prec.bin b := not_le.mp fun hle => hright ⟨hle, hin⟩
      exact ⟨un u (bin b t e), ⟨⟨ht.1, he, hin, hleft _⟩, hlt, ht.2⟩, rfl, fun _ _ _ => trivial⟩
    · obtain ⟨t', hwf, hwritten, hedge⟩ := ih ht.1 hin
      exact ⟨un u t', ⟨hwf, hedge _ ht.2 fun h => absurd h hin⟩, congrArg _ hwritten,
        fun _ _ _ => trivial⟩
  | bin c l r _ ihr =>
    obtain ⟨hl, hr, hc, hrc⟩ := ht
    have hwrite : ∀ {r' : OpTree α υ β}, r'.written = r.written ++ .bin b :: e.written →
        (bin c l r').written = (bin c l r).written ++ .bin b :: e.written := by
      intro r' h
      rw [written, written, h, List.append_assoc, List.cons_append]
    by_cases hin : r.RightAbove prec (prec.bin b)
    · have hlt : prec.bin c < prec.bin b := not_le.mp fun hle => hright ⟨hle, hin⟩
      exact ⟨bin c l (bin b r e), ⟨hl, ⟨hr, he, hin, hleft _⟩, hc, hlt, hrc⟩, hwrite rfl,
        fun _ h _ => h⟩
    · obtain ⟨r', hwf, hwritten, hedge⟩ := ihr hr hin
      exact ⟨bin c l r', ⟨hl, hwf, hc, hedge _ hrc fun h => absurd h hin⟩, hwrite hwritten,
        fun _ h _ => h⟩

variable (prec) in
/-- The unary operators and the atom that an operand starts with. -/
theorem exists_operand {syms : List (Sym α υ β)} (h : expectsOperand syms = true) :
    ∃ (e : OpTree α υ β) (rest : List (Sym α υ β)), e.WellFormed prec ∧
      (∀ p, e.LeftAbove prec p) ∧ syms = e.written ++ rest ∧ expectsOperator rest = true := by
  induction syms with
  | nil => simp [expectsOperand] at h
  | cons sym rest ih =>
    cases sym with
    | atom a => exact ⟨atom a, rest, trivial, fun _ => trivial, rfl, by rwa [expectsOperand] at h⟩
    | un u =>
      rw [expectsOperand] at h
      obtain ⟨e, rest', hwf, hleft, he, hrest⟩ := ih h
      exact ⟨un u e, rest', ⟨hwf, hleft _⟩, fun _ => trivial, congrArg _ he, hrest⟩
    | bin b => simp [expectsOperand] at h

theorem exists_extension (n : Nat) {t : OpTree α υ β} (ht : t.WellFormed prec)
    {syms : List (Sym α υ β)} (hn : syms.length ≤ n) (h : expectsOperator syms = true) :
    ∃ t' : OpTree α υ β, t'.WellFormed prec ∧ t'.written = t.written ++ syms := by
  induction n generalizing t syms with
  | zero =>
    obtain rfl := List.length_eq_zero_iff.mp (Nat.le_zero.mp hn)
    exact ⟨t, ht, (List.append_nil _).symm⟩
  | succ n ih =>
    cases syms with
    | nil => exact ⟨t, ht, (List.append_nil _).symm⟩
    | cons sym rest =>
      cases sym with
      | atom a => simp [expectsOperator] at h
      | un u => simp [expectsOperator] at h
      | bin b =>
        rw [expectsOperator] at h
        obtain ⟨e, rest', hwf, hleft, rfl, hrest⟩ := exists_operand prec h
        obtain ⟨t', ht', hwritten, -⟩ := exists_attach b ht hwf hleft
        rw [List.length_cons, List.length_append] at hn
        obtain ⟨t'', ht'', hwritten'⟩ := ih ht' (show rest'.length ≤ n by omega) hrest
        refine ⟨t'', ht'', ?_⟩
        rw [hwritten', hwritten, List.append_assoc, List.cons_append]

variable (prec) in
/-- What can be written is what alternates between operands and operators. -/
theorem expectsOperand_iff (syms : List (Sym α υ β)) :
    expectsOperand syms = true ↔ ∃ t : OpTree α υ β, t.WellFormed prec ∧ t.written = syms := by
  constructor
  · intro h
    obtain ⟨e, rest, hwf, -, rfl, hrest⟩ := exists_operand prec h
    obtain ⟨t, ht, hwritten⟩ := exists_extension rest.length hwf le_rfl hrest
    exact ⟨t, ht, hwritten⟩
  · rintro ⟨t, -, rfl⟩
    rw [← List.append_nil t.written, expectsOperand_written, expectsOperator]

end OpTree

end Wardex.Lib
