import Wardex.Lib.Run

/-! Bounded response over a finite trace: a trigger wants an answer, at the trigger itself or
within the next `n` events. -/

namespace Wardex.Lib

variable {ε : Type*} {T P Q : ε → Prop} {n : ℕ} {es : List ε}

/-- Some trigger is followed by `n` events, and neither it nor they are an answer. -/
def Unanswered (T P : ε → Prop) (n : ℕ) (es : List ε) : Prop :=
  ∃ as e window rest, es = as ++ e :: (window ++ rest) ∧ T e ∧ window.length = n ∧
    ∀ x ∈ e :: window, ¬P x

/-- The same of the first trigger. -/
def FirstUnanswered (T P : ε → Prop) (n : ℕ) (es : List ε) : Prop :=
  ∃ as e window rest, es = as ++ e :: (window ++ rest) ∧ (∀ a ∈ as, ¬T a) ∧ T e ∧
    window.length = n ∧ ∀ x ∈ e :: window, ¬P x

def FirstAnswered (T P : ε → Prop) (n : ℕ) (es : List ε) : Prop :=
  ∃ as e window rest, es = as ++ e :: (window ++ rest) ∧ (∀ a ∈ as, ¬T a) ∧ T e ∧
    window.length ≤ n ∧ ∃ x ∈ e :: window, P x

/-- The first trigger is answered, but not by an answer that `Q` takes. -/
def FirstOverlooked (T P Q : ε → Prop) (n : ℕ) (es : List ε) : Prop :=
  ∃ as e window rest, es = as ++ e :: (window ++ rest) ∧ (∀ a ∈ as, ¬T a) ∧ T e ∧
    window.length = n ∧ (∀ x ∈ e :: window, ¬Q x) ∧ ∃ x ∈ e :: window, P x

theorem not_unanswered_nil : ¬Unanswered T P n [] := by
  rintro ⟨as, e, window, rest, hes, -⟩
  simp at hes

theorem unanswered_cons {x : ε} : Unanswered T P n (x :: es) ↔
    (T x ∧ n ≤ es.length ∧ ∀ y ∈ x :: es.take n, ¬P y) ∨ Unanswered T P n es := by
  constructor
  · rintro ⟨as, e, window, rest, hes, he, rfl, hno⟩
    cases as with
    | nil =>
      obtain ⟨rfl, rfl⟩ := List.cons.inj hes
      refine Or.inl ⟨he, by simp, ?_⟩
      rwa [List.take_left]
    | cons y as => exact Or.inr ⟨as, e, window, rest, (List.cons.inj hes).2, he, rfl, hno⟩
  · rintro (⟨hx, hlong, hno⟩ | ⟨as, e, window, rest, rfl, h⟩)
    · exact ⟨[], x, es.take n, es.drop n, by rw [List.take_append_drop]; rfl, hx,
        List.length_take_of_le hlong, hno⟩
    · exact ⟨x :: as, e, window, rest, rfl, h⟩

instance decidableUnanswered [DecidablePred T] [DecidablePred P] :
    (es : List ε) → Decidable (Unanswered T P n es)
  | [] => isFalse not_unanswered_nil
  | _ :: es =>
    have := decidableUnanswered es
    decidable_of_iff _ unanswered_cons.symm

theorem first_unique {as as' t t' : List ε} {e e' : ε} (h : as ++ e :: t = as' ++ e' :: t')
    (has : ∀ a ∈ as, ¬T a) (has' : ∀ a ∈ as', ¬T a) (he : T e) (he' : T e') :
    e = e' ∧ t = t' := by
  induction as generalizing as' with
  | nil =>
    cases as' with
    | nil => exact List.cons.inj h
    | cons x as' => exact absurd ((List.cons.inj h).1 ▸ he) (has' x (List.mem_cons_self ..))
  | cons x as ih =>
    cases as' with
    | nil => exact absurd ((List.cons.inj h).1 ▸ he') (has x (List.mem_cons_self ..))
    | cons y as' =>
      exact ih (List.cons.inj h).2 (fun a ha => has a (List.mem_cons_of_mem _ ha))
        fun a ha => has' a (List.mem_cons_of_mem _ ha)

theorem FirstAnswered.not_firstUnanswered (h : FirstAnswered T P n es) :
    ¬FirstUnanswered T P n es := by
  obtain ⟨as, e, window, rest, hes, has, he, hlength, x, hx, hP⟩ := h
  rintro ⟨as', e', window', rest', hes', has', he', hlength', hno⟩
  obtain ⟨rfl, htail⟩ := first_unique (hes.symm.trans hes') has has' he he'
  -- the answer lies within the full window
  have hprefix : window <+: window' := List.prefix_of_prefix_length_le
    (List.prefix_append window rest) (htail ▸ List.prefix_append window' rest') (by omega)
  exact hno x (List.cons_subset_cons e hprefix.subset hx) hP

theorem exists_first {l : List ε} (h : ∃ x ∈ l, T x) :
    ∃ as e bs, l = as ++ e :: bs ∧ (∀ a ∈ as, ¬T a) ∧ T e := by
  classical
  induction l with
  | nil => simp at h
  | cons x l ih =>
    by_cases hx : T x
    · exact ⟨[], x, l, rfl, by simp, hx⟩
    · obtain ⟨as, e, bs, rfl, has, he⟩ := ih (by simpa [hx] using h)
      exact ⟨x :: as, e, bs, rfl, List.forall_mem_cons.mpr ⟨hx, has⟩, he⟩

/-- If some trigger has a full window then the first one has. -/
theorem Unanswered.first (h : Unanswered T P n es) :
    FirstUnanswered T Q n es ∨ FirstAnswered T Q n es := by
  obtain ⟨as, e, window, rest, rfl, he, hlength, -⟩ := h
  obtain ⟨as', e', bs, hsplit, has', he'⟩ := exists_first (l := as ++ [e]) ⟨e, by simp, he⟩
  have htail : as ++ e :: (window ++ rest) = as' ++ e' :: (bs ++ (window ++ rest)) := by
    rw [← List.singleton_append, ← List.append_assoc, hsplit, List.append_assoc,
      List.cons_append]
  have hlong : n ≤ (bs ++ (window ++ rest)).length := by
    simp only [List.length_append]
    omega
  rw [← List.take_append_drop n (bs ++ (window ++ rest))] at htail
  by_cases hans : ∃ x ∈ e' :: (bs ++ (window ++ rest)).take n, Q x
  · exact Or.inr ⟨as', e', _, _, htail, has', he', List.length_take_le .., hans⟩
  · exact Or.inl ⟨as', e', _, _, htail, has', he', List.length_take_of_le hlong,
      fun x hx hQ => hans ⟨x, hx, hQ⟩⟩

/-- Watching the first trigger only, and taking only the answers in `Q`, finds the unanswered
traces exactly where neither restriction shows. -/
theorem firstUnanswered_iff_unanswered :
    (FirstUnanswered T Q n es ↔ Unanswered T P n es) ↔
      (FirstOverlooked T P Q n es → Unanswered T P n es) ∧
        (FirstAnswered T Q n es → ¬Unanswered T P n es) := by
  constructor
  · intro h
    constructor
    · rintro ⟨as, e, window, rest, hes, has, he, hlength, hQ, -⟩
      exact h.mp ⟨as, e, window, rest, hes, has, he, hlength, hQ⟩
    · exact fun hans hun => hans.not_firstUnanswered (h.mpr hun)
  · rintro ⟨hoverlooked, hanswered⟩
    constructor
    · rintro ⟨as, e, window, rest, hes, has, he, hlength, hQ⟩
      by_cases hP : ∃ x ∈ e :: window, P x
      · exact hoverlooked ⟨as, e, window, rest, hes, has, he, hlength, hQ, hP⟩
      · exact ⟨as, e, window, rest, hes, he, hlength, fun x hx hx' => hP ⟨x, hx, hx'⟩⟩
    · intro hun
      exact hun.first.resolve_right fun hans => hanswered hans hun

/-! ## An automaton for the first trigger -/

inductive Watch where
  | idle
  | tracking (remaining : ℕ)
  | satisfied
  | violated
deriving DecidableEq, Repr

namespace Watch

variable (T Q : ε → Prop) [DecidablePred T] [DecidablePred Q] (n : ℕ)

def await (remaining : ℕ) (x : ε) : Watch :=
  if Q x then .satisfied else if remaining = 0 then .violated else .tracking (remaining - 1)

def step : Watch → ε → Watch
  | .idle, x => if T x then await Q n x else .idle
  | .tracking remaining, x => await Q remaining x
  | .satisfied, _ => .satisfied
  | .violated, _ => .violated

variable {T Q n}

theorem run_satisfied (es : List ε) : run (step T Q n) .satisfied es = .satisfied := by
  induction es with
  | nil => rfl
  | cons x es ih => exact ih

theorem run_violated (es : List ε) : run (step T Q n) .violated es = .violated := by
  induction es with
  | nil => rfl
  | cons x es ih => exact ih

/-- After an `await` with `remaining` events to go, the first of them included. -/
theorem run_await (remaining : ℕ) (x : ε) (es : List ε) :
    run (step T Q n) (await Q remaining x) es = .violated ↔
      ∃ window rest, es = window ++ rest ∧ window.length = remaining ∧
        ∀ y ∈ x :: window, ¬Q y := by
  induction es generalizing remaining x with
  | nil =>
    rw [run_nil, await]
    split_ifs with hQ hzero
    · exact iff_of_false (by simp) fun ⟨_, _, _, _, hno⟩ => hno x (List.mem_cons_self ..) hQ
    · exact iff_of_true rfl ⟨[], [], rfl, hzero.symm, by simpa using hQ⟩
    · refine iff_of_false (by simp) fun ⟨window, rest, hes, hlength, _⟩ => hzero ?_
      rw [(List.append_eq_nil_iff.mp hes.symm).1] at hlength
      exact hlength.symm
  | cons y es ih =>
    rw [await]
    split_ifs with hQ hzero
    · rw [run_satisfied]
      exact iff_of_false (by simp) fun ⟨_, _, _, _, hno⟩ => hno x (List.mem_cons_self ..) hQ
    · rw [run_violated]
      exact iff_of_true rfl ⟨[], y :: es, rfl, hzero.symm, by simpa using hQ⟩
    · rw [run_cons, step, ih]
      constructor
      · rintro ⟨window, rest, rfl, hlength, hno⟩
        exact ⟨y :: window, rest, rfl, by rw [List.length_cons]; omega,
          List.forall_mem_cons.mpr ⟨hQ, hno⟩⟩
      · rintro ⟨window, rest, hes, hlength, hno⟩
        cases window with
        | nil => exact absurd hlength.symm hzero
        | cons z window =>
          obtain ⟨rfl, rfl⟩ := List.cons.inj hes
          refine ⟨window, rest, rfl, ?_, (List.forall_mem_cons.mp hno).2⟩
          rw [List.length_cons] at hlength
          omega

theorem run_idle (es : List ε) :
    run (step T Q n) .idle es = .violated ↔ FirstUnanswered T Q n es := by
  induction es with
  | nil => exact iff_of_false (by simp) fun ⟨as, _, _, _, hes, _⟩ => by simp at hes
  | cons x es ih =>
    rw [run_cons, step]
    split_ifs with hT
    · rw [run_await]
      constructor
      · rintro ⟨window, rest, rfl, hlength, hno⟩
        exact ⟨[], x, window, rest, rfl, by simp, hT, hlength, hno⟩
      · rintro ⟨as, e, window, rest, hes, has, he, hlength, hno⟩
        have hsplit : [] ++ x :: es = as ++ e :: (window ++ rest) := hes
        obtain ⟨rfl, rfl⟩ := first_unique hsplit (by simp) has hT he
        exact ⟨window, rest, rfl, hlength, hno⟩
    · rw [ih]
      constructor
      · rintro ⟨as, e, window, rest, rfl, has, he, hlength, hno⟩
        exact ⟨x :: as, e, window, rest, rfl, List.forall_mem_cons.mpr ⟨hT, has⟩, he, hlength,
          hno⟩
      · rintro ⟨as, e, window, rest, hes, has, he, hlength, hno⟩
        cases as with
        | nil => exact absurd ((List.cons.inj hes).1 ▸ he) hT
        | cons y as =>
          exact ⟨as, e, window, rest, (List.cons.inj hes).2,
            (List.forall_mem_cons.mp has).2, he, hlength, hno⟩

end Watch

end Wardex.Lib
