import Mathlib.Data.List.Basic
import Mathlib.Data.List.Infix

/-! Runs of a deterministic system over a list of events, and the two ways to speak about
all of a run: a condition on each step taken, and a property of each state reached.  A step may
fail; then the run ends, and there is no state after it. -/

namespace Wardex.Lib

section

variable {σ ε : Type*} (step : σ → ε → σ)

def run (s : σ) (es : List ε) : σ := es.foldl step s

/-- Every step of the run is taken in a state and with an event that satisfy `P`. -/
def Along (P : σ → ε → Prop) : σ → List ε → Prop
  | _, [] => True
  | s, e :: es => P s e ∧ Along P (step s e) es

instance decidableAlong (P : σ → ε → Prop) [∀ s e, Decidable (P s e)] :
    (s : σ) → (es : List ε) → Decidable (Along step P s es)
  | _, [] => isTrue trivial
  | s, e :: es =>
    have := decidableAlong P (step s e) es
    inferInstanceAs (Decidable (P s e ∧ Along step P (step s e) es))

/-- Every state of the run, the first and the last included, satisfies `Q`. -/
def Throughout (Q : σ → Prop) : σ → List ε → Prop
  | s, [] => Q s
  | s, e :: es => Q s ∧ Throughout Q (step s e) es

variable {step}

@[simp] theorem run_nil (s : σ) : run step s [] = s := rfl

@[simp] theorem run_cons (s : σ) (e : ε) (es : List ε) :
    run step s (e :: es) = run step (step s e) es := rfl

theorem run_append (s : σ) (es fs : List ε) :
    run step s (es ++ fs) = run step (run step s es) fs := List.foldl_append

theorem Along.append {P : σ → ε → Prop} {s : σ} {es fs : List ε} :
    Along step P s (es ++ fs) ↔ Along step P s es ∧ Along step P (run step s es) fs := by
  induction es generalizing s with
  | nil => simp [Along]
  | cons e es ih => simp only [List.cons_append, Along, run_cons, ih, and_assoc]

theorem Along.mono {P P' : σ → ε → Prop} (h : ∀ s e, P s e → P' s e) {s : σ} {es : List ε}
    (ha : Along step P s es) : Along step P' s es := by
  induction es generalizing s with
  | nil => trivial
  | cons e es ih => exact ⟨h s e ha.1, ih ha.2⟩

theorem Along.and {P P' : σ → ε → Prop} {s : σ} {es : List ε} (h : Along step P s es)
    (h' : Along step P' s es) : Along step (fun s e => P s e ∧ P' s e) s es := by
  induction es generalizing s with
  | nil => trivial
  | cons e es ih => exact ⟨⟨h.1, h'.1⟩, ih h.2 h'.2⟩

theorem along_iff {P : σ → ε → Prop} {s : σ} {es : List ε} :
    Along step P s es ↔ ∀ as e bs, es = as ++ e :: bs → P (run step s as) e := by
  constructor
  · rintro h as e bs rfl
    exact (Along.append.mp h).2.1
  · intro h
    induction es generalizing s with
    | nil => trivial
    | cons e es ih =>
      refine ⟨h [] e es rfl, ih fun as e' bs he => ?_⟩
      exact h (e :: as) e' bs (congrArg (List.cons e) he)

theorem along_of_forall {P : σ → ε → Prop} {es : List ε} (h : ∀ e ∈ es, ∀ s, P s e) (s : σ) :
    Along step P s es := by
  refine along_iff.mpr fun as e bs he => h e ?_ _
  rw [he]
  exact List.mem_append_right as List.mem_cons_self

/-- What holds of each element and those before it, one element at a time. -/
theorem forall_split_concat {P : List ε → ε → Prop} {es : List ε} {e : ε} :
    (∀ as a bs, es ++ [e] = as ++ a :: bs → P as a) ↔
      (∀ as a bs, es = as ++ a :: bs → P as a) ∧ P es e := by
  constructor
  · intro h
    refine ⟨fun as a bs hs => h as a (bs ++ [e]) ?_, h es e [] rfl⟩
    rw [hs, List.append_assoc, List.cons_append]
  · rintro ⟨h, he⟩ as a bs hs
    rcases bs.eq_nil_or_concat' with rfl | ⟨bs, b, rfl⟩
    · obtain ⟨rfl, ha⟩ := List.append_inj' hs rfl
      obtain rfl := List.singleton_inj.mp ha
      exact he
    · rw [← List.cons_append, ← List.append_assoc] at hs
      exact h as a bs (List.append_inj' hs rfl).1

/-- A condition that can be read off an image of the state holds along the run of the images. -/
theorem along_map {τ : Type*} {step' : τ → ε → τ} {f : σ → τ} {P : σ → ε → Prop}
    {P' : τ → ε → Prop} (hf : ∀ s e, f (step s e) = step' (f s) e)
    (hP : ∀ s e, P s e ↔ P' (f s) e) {s : σ} {es : List ε} :
    Along step P s es ↔ Along step' P' (f s) es := by
  induction es generalizing s with
  | nil => exact Iff.rfl
  | cons e es ih => rw [Along, Along, hP, ih, hf]

/-- The induction over a run: an invariant that every permitted step keeps. -/
theorem run_invariant {I : σ → Prop} {P : σ → ε → Prop}
    (hstep : ∀ s e, I s → P s e → I (step s e)) {s : σ} {es : List ε} (h : I s)
    (ha : Along step P s es) : I (run step s es) := by
  induction es generalizing s with
  | nil => exact h
  | cons e es ih => exact ih (hstep s e h ha.1) ha.2

/-- The same induction for a relation between the first and the last state. -/
theorem run_relation {R : σ → σ → Prop} (hrefl : ∀ s, R s s)
    (htrans : ∀ a b c, R a b → R b c → R a c) (hstep : ∀ s e, R s (step s e)) (s : σ)
    (es : List ε) : R s (run step s es) := by
  induction es generalizing s with
  | nil => exact hrefl s
  | cons e es ih => exact htrans _ _ _ (hstep s e) (ih (step s e))

theorem Throughout.head {Q : σ → Prop} {s : σ} {es : List ε} (h : Throughout step Q s es) :
    Q s := by
  cases es with
  | nil => exact h
  | cons e es => exact h.1

theorem Throughout.last {Q : σ → Prop} {s : σ} {es : List ε} (h : Throughout step Q s es) :
    Q (run step s es) := by
  induction es generalizing s with
  | nil => exact h
  | cons e es ih => exact ih h.2

theorem throughout_of_invariant {I Q : σ → Prop} {P : σ → ε → Prop}
    (hstep : ∀ s e, I s → P s e → I (step s e)) (hQ : ∀ s, I s → Q s)
    {s : σ} {es : List ε} (h : I s) (ha : Along step P s es) : Throughout step Q s es := by
  induction es generalizing s with
  | nil => exact hQ s h
  | cons e es ih => exact ⟨hQ s h, ih (hstep s e h ha.1) ha.2⟩

/-- What an invariant lets each permitted step do holds of every step of a run. -/
theorem along_of_invariant {I : σ → Prop} {P P' : σ → ε → Prop}
    (hstep : ∀ s e, I s → P s e → I (step s e)) (hP : ∀ s e, I s → P s e → P' s e)
    {s : σ} {es : List ε} (h : I s) (ha : Along step P s es) : Along step P' s es := by
  induction es generalizing s with
  | nil => trivial
  | cons e es ih => exact ⟨hP s e h ha.1, ih (hstep s e h ha.1) ha.2⟩

/-- A run that stays in `Q` meets every condition that staying in `Q` forces on a step. -/
theorem along_of_throughout {I Q : σ → Prop} {P P' : σ → ε → Prop}
    (hstep : ∀ s e, I s → P s e → I (step s e))
    (hforce : ∀ s e, I s → P s e → Q s → Q (step s e) → P' s e) {s : σ} {es : List ε} (h : I s)
    (ha : Along step P s es) (ht : Throughout step Q s es) : Along step P' s es := by
  induction es generalizing s with
  | nil => trivial
  | cons e es ih =>
    have hq : Q (step s e) := Throughout.head ht.2
    exact ⟨hforce s e h ha.1 ht.1 hq, ih (hstep s e h ha.1) ha.2 ht.2⟩

/-- A condition on the steps that is exactly what the property costs: an invariant kept by
the permitted steps implies the property, and a step into the property is permitted. -/
theorem throughout_iff_along {I Q : σ → Prop} {P : σ → ε → Prop}
    (hstep : ∀ s e, I s → P s e → I (step s e)) (hQ : ∀ s, I s → Q s)
    (hforce : ∀ s e, I s → Q (step s e) → P s e) {s : σ} {es : List ε} (h : I s) :
    Throughout step Q s es ↔ Along step P s es := by
  refine ⟨fun ht => ?_, throughout_of_invariant hstep hQ h⟩
  induction es generalizing s with
  | nil => trivial
  | cons e es ih =>
    have hp : P s e := hforce s e h (Throughout.head ht.2)
    exact ⟨hp, ih (hstep s e h hp) ht.2⟩

/-- The same for a property of the states together with one of the steps. -/
theorem throughout_and_along_iff {I Q : σ → Prop} {E P : σ → ε → Prop}
    (hstep : ∀ s e, I s → P s e → I (step s e)) (hQ : ∀ s, I s → Q s)
    (hE : ∀ s e, I s → P s e → E s e) (hforce : ∀ s e, I s → Q (step s e) → E s e → P s e)
    {s : σ} {es : List ε} (h : I s) :
    Throughout step Q s es ∧ Along step E s es ↔ Along step P s es := by
  constructor
  · rintro ⟨ht, he⟩
    induction es generalizing s with
    | nil => trivial
    | cons e es ih =>
      have hp : P s e := hforce s e h (Throughout.head ht.2) he.1
      exact ⟨hp, ih (hstep s e h hp) ht.2 he.2⟩
  · intro ha
    exact ⟨throughout_of_invariant hstep hQ h ha, along_of_invariant hstep hE h ha⟩

end

/-! ## Steps that may fail -/

variable {σ ε α : Type*} (step : σ → ε → Except α σ)

def runPartial : σ → List ε → Except α σ
  | s, [] => .ok s
  | s, e :: es =>
    match step s e with
    | .ok s' => runPartial s' es
    | .error a => .error a

variable {step}

theorem map_eq_ok {β γ : Type*} {x : Except α β} {f : β → γ} {c : γ} (h : x.map f = .ok c) :
    ∃ b, x = .ok b ∧ f b = c := by
  cases x with
  | error a => cases h
  | ok b => exact ⟨b, rfl, Except.ok.inj h⟩

theorem runPartial_cons {s s' : σ} {e : ε} {es : List ε}
    (h : runPartial step s (e :: es) = .ok s') :
    ∃ t, step s e = .ok t ∧ runPartial step t es = .ok s' := by
  rw [runPartial] at h
  cases ht : step s e with
  | error a => simp [ht] at h
  | ok t => exact ⟨t, rfl, by simpa [ht] using h⟩

/-- The induction over the steps that do not fail. -/
theorem runPartial_invariant {I : σ → Prop} (hstep : ∀ s e t, I s → step s e = .ok t → I t)
    {s s' : σ} {es : List ε} (h : I s) (hr : runPartial step s es = .ok s') : I s' := by
  induction es generalizing s with
  | nil =>
    cases hr
    exact h
  | cons e es ih =>
    obtain ⟨t, ht, hrest⟩ := runPartial_cons hr
    exact ih (hstep s e t h ht) hrest

/-! ## Answers along a run -/

section

variable {σ ε ω : Type*} (f : σ → ε → ω × σ)

/-- The state after an event, without the answer. -/
def next (s : σ) (e : ε) : σ := (f s e).2

def answers : σ → List ε → List ω
  | _, [] => []
  | s, e :: es => (f s e).1 :: answers (f s e).2 es

theorem answers_concat (s : σ) (es : List ε) (e : ε) :
    answers f s (es ++ [e]) = answers f s es ++ [(f (run (next f) s es) e).1] := by
  induction es generalizing s with
  | nil => rfl
  | cons e' es ih => exact congrArg (List.cons _) (ih (f s e').2)

end

end Wardex.Lib
