import Mathlib.Algebra.Order.Group.Nat
import Mathlib.Data.List.Basic

/-! Throttling by key: a request goes through unless a request with its key went through
within its window, and the throttle only remembers the last time for each key. -/

namespace Wardex.Lib.Throttle

variable {κ ο : Type*} [DecidableEq κ]

structure Request (κ ο : Type*) where
  key : κ
  window : ℕ
  owner : ο

/-- The last time for the key is less than `window` ago. -/
def Blocked (last : κ → Option ℕ) (key : κ) (now window : ℕ) : Prop :=
  ∃ t, last key = some t ∧ now - t < window

instance (last : κ → Option ℕ) (key : κ) (now window : ℕ) :
    Decidable (Blocked last key now window) :=
  decidable_of_iff ((last key).any fun t => now - t < window) (by
    rw [Blocked, Option.any_eq_true]
    simp only [decide_eq_true_iff])

def passed (last : κ → Option ℕ) (key : κ) (now : ℕ) : κ → Option ℕ :=
  Function.update last key (some now)

/-- The requests of one moment, in order: the memory after them and those that went through. -/
def turn (now : ℕ) : (κ → Option ℕ) → List (Request κ ο) → (κ → Option ℕ) × List (Request κ ο)
  | last, [] => (last, [])
  | last, r :: rs =>
    if Blocked last r.key now r.window then turn now last rs
    else
      let (last', through) := turn now (passed last r.key now) rs
      (last', r :: through)

/-- The memory against the list of everything that went through, up to a moment. -/
structure Tracks (last : κ → Option ℕ) (through : List (κ × ℕ)) (clock : ℕ) : Prop where
  recorded : ∀ key t, last key = some t → (key, t) ∈ through
  latest : ∀ p ∈ through, ∃ t, last p.1 = some t ∧ p.2 ≤ t
  past : ∀ p ∈ through, p.2 ≤ clock

namespace Tracks

variable {last : κ → Option ℕ} {through : List (κ × ℕ)} {clock now : ℕ}

omit [DecidableEq κ] in
theorem empty (clock : ℕ) : Tracks (fun _ : κ => none) [] clock where
  recorded _ _ h := by cases h
  latest _ h := absurd h List.not_mem_nil
  past _ h := absurd h List.not_mem_nil

omit [DecidableEq κ] in
theorem mono (h : Tracks last through clock) (hclock : clock ≤ now) : Tracks last through now where
  recorded := h.recorded
  latest := h.latest
  past p hp := (h.past p hp).trans hclock

omit [DecidableEq κ] in
/-- The last time decides as all times would. -/
theorem blocked_iff (h : Tracks last through clock) (key : κ) (now window : ℕ) :
    Blocked last key now window ↔ ∃ t, (key, t) ∈ through ∧ now - t < window := by
  constructor
  · rintro ⟨t, hlast, ht⟩
    exact ⟨t, h.recorded key t hlast, ht⟩
  · rintro ⟨t, hmem, ht⟩
    obtain ⟨t', hlast, hle⟩ := h.latest _ hmem
    exact ⟨t', hlast, (Nat.sub_le_sub_left hle now).trans_lt ht⟩

theorem passed (h : Tracks last through clock) (hclock : clock ≤ now) (key : κ) :
    Tracks (passed last key now) (through ++ [(key, now)]) now where
  recorded k t hk := by
    rcases eq_or_ne k key with rfl | hne
    · rw [Throttle.passed, Function.update_self] at hk
      obtain rfl := Option.some.inj hk
      exact List.mem_append_right _ (List.mem_singleton_self _)
    · rw [Throttle.passed, Function.update_of_ne hne] at hk
      exact List.mem_append_left _ (h.recorded k t hk)
  latest p hp := by
    have hnow : p.2 ≤ now := by
      rcases List.mem_append.mp hp with hp | hp
      · exact (h.past p hp).trans hclock
      · exact (congrArg Prod.snd (List.mem_singleton.mp hp)).le
    rcases eq_or_ne p.1 key with heq | hne
    · exact ⟨now, by rw [heq, Throttle.passed, Function.update_self], hnow⟩
    · rw [Throttle.passed, Function.update_of_ne hne]
      rcases List.mem_append.mp hp with hp | hp
      · exact h.latest p hp
      · rw [List.mem_singleton.mp hp] at hne
        exact absurd rfl hne
  past p hp := by
    rcases List.mem_append.mp hp with hp | hp
    · exact (h.past p hp).trans hclock
    · exact (congrArg Prod.snd (List.mem_singleton.mp hp)).le

/-- A whole turn keeps track. -/
theorem turn (h : Tracks last through clock) (hclock : clock ≤ now) (rs : List (Request κ ο)) :
    Tracks (turn now last rs).1
      (through ++ (Throttle.turn now last rs).2.map fun r => (r.key, now)) now := by
  induction rs generalizing last through clock with
  | nil =>
    rw [Throttle.turn, List.map_nil, List.append_nil]
    exact h.mono hclock
  | cons r rs ih =>
    rw [Throttle.turn]
    split_ifs
    · exact ih h hclock
    · have hrest := ih (h.passed hclock r.key) le_rfl
      rwa [List.append_assoc] at hrest

end Tracks

section

variable {now : ℕ} {last : κ → Option ℕ}

theorem blocked_passed {key k : κ} {window : ℕ} (hwindow : 0 < window) :
    Blocked (passed last key now) k now window ↔ k = key ∨ Blocked last k now window := by
  unfold Blocked passed
  rcases eq_or_ne k key with rfl | hne
  · simp [hwindow]
  · simp [hne]

theorem turn_append (as bs : List (Request κ ο)) :
    turn now last (as ++ bs) =
      ((turn now (turn now last as).1 bs).1,
        (turn now last as).2 ++ (turn now (turn now last as).1 bs).2) := by
  induction as generalizing last with
  | nil => rfl
  | cons r as ih =>
    rw [List.cons_append, turn, turn]
    split_ifs
    · exact ih
    · rw [ih]
      rfl

theorem turn_sublist (rs : List (Request κ ο)) : (turn now last rs).2.Sublist rs := by
  induction rs generalizing last with
  | nil => exact List.Sublist.refl _
  | cons r rs ih =>
    rw [turn]
    split_ifs
    · exact ih.cons r
    · exact ih.cons_cons r

/-- After some requests a key is blocked if it was before, or if one of them with the key was
free to go, be it that one or an earlier one that went through. -/
theorem blocked_turn {k : κ} {window : ℕ} (hwindow : 0 < window) (rs : List (Request κ ο)) :
    Blocked (turn now last rs).1 k now window ↔
      Blocked last k now window ∨ ∃ q ∈ rs, q.key = k ∧ ¬ Blocked last k now q.window := by
  induction rs generalizing last with
  | nil => simp [turn]
  | cons r rs ih =>
    rw [turn]
    split_ifs with hr
    · rw [ih]
      refine or_congr_right ⟨?_, ?_⟩
      · rintro ⟨q, hq, hkey, hfree⟩
        exact ⟨q, List.mem_cons_of_mem r hq, hkey, hfree⟩
      · rintro ⟨q, hq, hkey, hfree⟩
        rcases List.mem_cons.mp hq with rfl | hq
        · exact absurd (hkey ▸ hr) hfree
        · exact ⟨q, hq, hkey, hfree⟩
    · change Blocked (turn now (passed last r.key now) rs).1 k now window ↔ _
      rw [ih, blocked_passed hwindow]
      rcases eq_or_ne k r.key with rfl | hne
      · exact iff_of_true (Or.inl (Or.inl rfl)) (Or.inr ⟨r, List.mem_cons_self, rfl, hr⟩)
      · have hsame : ∀ w, Blocked (passed last r.key now) k now w ↔ Blocked last k now w := by
          intro w
          unfold Blocked passed
          rw [Function.update_of_ne hne]
        simp only [hsame, hne, false_or, List.mem_cons, exists_eq_or_imp, Ne.symm hne, false_and]

/-- A request goes through exactly when the memory does not block it and no earlier request of
the turn with its key was free to go. -/
theorem mem_turn_iff {pre post : List (Request κ ο)} {r : Request κ ο} (hwindow : 0 < r.window)
    (hpre : r ∉ pre) (hpost : r ∉ post) :
    r ∈ (turn now last (pre ++ r :: post)).2 ↔
      ¬ Blocked last r.key now r.window ∧
        ∀ q ∈ pre, q.key = r.key → Blocked last r.key now q.window := by
  have hbefore : r ∉ (turn now last pre).2 := fun h => hpre ((turn_sublist pre).mem h)
  have hafter : ∀ last', r ∉ (turn now last' post).2 := fun _ h => hpost ((turn_sublist post).mem h)
  have hblocked : Blocked (turn now last pre).1 r.key now r.window ↔ _ := blocked_turn hwindow pre
  rw [turn_append, List.mem_append, or_iff_right hbefore, turn]
  split_ifs with h
  · refine iff_of_false (hafter _) ?_
    rintro ⟨hfree, hall⟩
    rcases hblocked.mp h with h | ⟨q, hq, hkey, hq'⟩
    · exact hfree h
    · exact hq' (hall q hq hkey)
  · refine iff_of_true List.mem_cons_self ⟨fun hb => h (hblocked.mpr (Or.inl hb)), ?_⟩
    intro q hq hkey
    by_contra hfree
    exact h (hblocked.mpr (Or.inr ⟨q, hq, hkey, hfree⟩))

end

end Wardex.Lib.Throttle
