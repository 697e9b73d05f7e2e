import Mathlib.Data.Finset.Card
import Mathlib.Data.Set.Insert
import Mathlib.Order.Defs.LinearOrder

/-! A voter that remembers one term and the candidate it voted for there, and what its
memory guarantees about all the votes it has ever cast.  Majorities of a finite set meet. -/

namespace Wardex.Lib

section

variable {α : Type*} {U S S' : Finset α}

structure Majority (U S : Finset α) : Prop where
  subset : S ⊆ U
  card_lt : U.card < 2 * S.card

theorem Majority.inter [DecidableEq α] (h : Majority U S) (h' : Majority U S') :
    ∃ v ∈ S, v ∈ S' := by
  have hlt : U.card < S.card + S'.card := by
    have h1 := h.card_lt
    have h2 := h'.card_lt
    omega
  obtain ⟨v, hv⟩ := Finset.inter_nonempty_of_card_lt_card_add_card h.subset h'.subset hlt
  exact ⟨v, (Finset.mem_inter.mp hv).1, (Finset.mem_inter.mp hv).2⟩

end

/-! ## Votes -/

variable {T C : Type*} [LinearOrder T]

structure Ballot (T C : Type*) where
  term : T
  votedFor : Option C

namespace Ballot

/-- What casting the vote `cast`, or none, does to the memory.  Nothing is said about
the remembered candidate when the term changes without a vote. -/
structure Casts (b b' : Ballot T C) (cast : Option (T × C)) : Prop where
  kept : cast = none → b'.term = b.term → b'.votedFor = b.votedFor
  cast_now : ∀ t c, cast = some (t, c) → t = b'.term ∧ b'.votedFor = some c

/-- One step of a voter whose term only rises and who votes again in a term only for
the candidate it remembers. -/
structure Step (b b' : Ballot T C) (cast : Option (T × C)) : Prop extends Casts b b' cast where
  term_le : b.term ≤ b'.term
  cast_free : ∀ t c, cast = some (t, c) → b'.term = b.term →
    b.votedFor = none ∨ b.votedFor = some c

/-- Every vote in the record has a term the voter has reached, and those of its present
term name the remembered candidate. -/
def Records (b : Ballot T C) (votes : Set (T × C)) : Prop :=
  ∀ t c, (t, c) ∈ votes → t ≤ b.term ∧ (t = b.term → b.votedFor = some c)

def OneVotePerTerm (votes : Set (T × C)) : Prop :=
  ∀ t c c', (t, c) ∈ votes → (t, c') ∈ votes → c = c'

/-- The remembered candidate got a vote in the present term, not in an earlier one. -/
def Fresh (b : Ballot T C) (votes : Set (T × C)) : Prop :=
  ∀ c, b.votedFor = some c → (b.term, c) ∈ votes

variable {b b' : Ballot T C} {votes : Set (T × C)} {cast : Option (T × C)}

theorem Step.refl (b : Ballot T C) : Step b b none where
  term_le := le_rfl
  kept := fun _ _ => rfl
  cast_now := by simp
  cast_free := by simp

/-- Raising the term without a vote is a step whatever becomes of the remembered vote. -/
theorem Step.raise (h : b.term < b'.term) : Step b b' none where
  term_le := h.le
  kept := fun _ he => absurd he h.ne'
  cast_now := by simp
  cast_free := by simp

/-- A vote in the term the voter ends in, given to the candidate it then remembers. -/
theorem Step.vote {c : C} (hc : b'.votedFor = some c) (ht : b.term ≤ b'.term)
    (hfree : b'.term = b.term → b.votedFor = none ∨ b.votedFor = some c) :
    Step b b' (some (b'.term, c)) where
  term_le := ht
  kept := fun h => by cases h
  cast_now := by
    rintro t d hd
    obtain ⟨rfl, rfl⟩ := Prod.mk.inj (Option.some.inj hd)
    exact ⟨rfl, hc⟩
  cast_free := by
    rintro t d hd he
    obtain ⟨rfl, rfl⟩ := Prod.mk.inj (Option.some.inj hd)
    exact hfree he

theorem Step.of_votedFor (hv : b'.votedFor = b.votedFor) (ht : b.term ≤ b'.term) :
    Step b b' none where
  term_le := ht
  kept := fun _ _ => hv
  cast_now := by simp
  cast_free := by simp

theorem Records.step (h : Records b votes) (hs : Step b b' cast) :
    Records b' (votes ∪ {v | cast = some v}) := by
  rintro t c (hv | hv)
  · obtain ⟨hle, hc⟩ := h t c hv
    refine ⟨hle.trans hs.term_le, fun ht => ?_⟩
    have hsame : b'.term = b.term := le_antisymm (ht ▸ hle) hs.term_le
    have hold : b.votedFor = some c := hc (ht.trans hsame)
    cases hcast : cast with
    | none => rw [hs.kept hcast hsame, hold]
    | some v =>
      -- a new vote in the same term can only repeat the old one
      obtain ⟨t', c'⟩ := v
      have hfree := hs.cast_free t' c' hcast hsame
      rw [hold] at hfree
      have hcc : c' = c := by
        rcases hfree with h0 | h0
        · cases h0
        · exact (Option.some.inj h0).symm
      rw [(hs.cast_now t' c' hcast).2, hcc]
  · obtain ⟨rfl, hvf⟩ := hs.cast_now t c hv
    exact ⟨le_rfl, fun _ => hvf⟩

theorem OneVotePerTerm.step (h1 : OneVotePerTerm votes) (h : Records b votes)
    (hs : Step b b' cast) : OneVotePerTerm (votes ∪ {v | cast = some v}) := by
  have hr := h.step hs
  intro t c c' hc hc'
  by_cases ht : t = b'.term
  · have e := (hr t c hc).2 ht
    have e' := (hr t c' hc').2 ht
    exact Option.some.inj (e.symm.trans e')
  · -- a vote of another term is an old one
    have old : ∀ d, (t, d) ∈ votes ∪ {v | cast = some v} → (t, d) ∈ votes := by
      rintro d (hd | hd)
      · exact hd
      · exact absurd (hs.cast_now t d hd).1 ht
    exact h1 t c c' (old c hc) (old c' hc')

theorem Fresh.step (h : Fresh b votes) (hs : Casts b b' cast)
    (hclear : cast = none → b'.term ≠ b.term → b'.votedFor = none) :
    Fresh b' (votes ∪ {v | cast = some v}) := by
  intro c hc
  cases hcast : cast with
  | some v =>
    obtain ⟨t', c'⟩ := v
    obtain ⟨rfl, hvf⟩ := hs.cast_now t' c' hcast
    rw [hvf] at hc
    rw [Option.some.inj hc]
    exact Or.inr rfl
  | none =>
    by_cases ht : b'.term = b.term
    · rw [hs.kept hcast ht] at hc
      rw [ht]
      exact Or.inl (h c hc)
    · rw [hclear hcast ht] at hc
      cases hc

/-! ## Elections -/

section Election

variable {V : Type*}

/-- A majority of the voters in `U` voted for `c` in term `t`. -/
def Elected (U : Finset V) (votes : V → Set (T × C)) (t : T) (c : C) : Prop :=
  ∃ S, Majority U S ∧ ∀ v ∈ S, (t, c) ∈ votes v

omit [LinearOrder T] in
theorem Elected.mono {U : Finset V} {votes votes' : V → Set (T × C)}
    (h : ∀ v, votes v ⊆ votes' v) {t : T} {c : C} (he : Elected U votes t c) :
    Elected U votes' t c := by
  obtain ⟨S, hS, hv⟩ := he
  exact ⟨S, hS, fun v hvS => h v (hv v hvS)⟩

omit [LinearOrder T] in
/-- Where every voter votes once a term, a term elects at most one candidate. -/
theorem Elected.unique [DecidableEq V] {U : Finset V} {votes : V → Set (T × C)}
    (hone : ∀ v, OneVotePerTerm (votes v)) {t : T} {c c' : C} (he : Elected U votes t c)
    (he' : Elected U votes t c') : c = c' := by
  obtain ⟨S, hS, hv⟩ := he
  obtain ⟨S', hS', hv'⟩ := he'
  obtain ⟨v, hvS, hvS'⟩ := hS.inter hS'
  exact hone v t c c' (hv v hvS) (hv' v hvS')

end Election

end Ballot

end Wardex.Lib
