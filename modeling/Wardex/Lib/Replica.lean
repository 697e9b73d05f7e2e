import Mathlib.Data.Set.Insert
import Mathlib.Logic.Function.Basic
import Mathlib.Order.MinMax
import Wardex.Lib.LogHistory

/-! One replica of a replicated log: what its term, log, votes and acknowledgements say about
the logs of the leaders, and the changes that keep this. -/

namespace Wardex.Lib

open LogHistory

/-- One replica, with all the votes it has given, the length of the log up to which it
acknowledged the leader of each term, and the log it had when it became a candidate. -/
structure Replica (ι E : Type*) where
  term : ℕ
  log : List E
  commit : ℕ
  votes : Set (ℕ × ι)
  ack : ℕ → ℕ
  candidacy : ℕ → Option (List E)

namespace Replica

variable {ι E : Type*} (termOf : E → ℕ)

/-- A single replica, seen against the leaders' logs `h`, the candidacies and the committed
positions of all terms. -/
structure Ok (h : LogHistory ι E) (candidacy : ι → ℕ → Option (List E)) (C : ℕ → ℕ → Prop)
    (n : ι) (ρ : Replica ι E) : Prop where
  sourced : h.Sourced termOf ρ.log
  term_le : ∀ e ∈ ρ.log, termOf e ≤ ρ.term
  candidacy_ok : ∀ u l, candidacy n u = some l → u ≤ ρ.term ∧ h.Sourced termOf l ∧
    (∀ e ∈ l, termOf e < u) ∧ (ρ.term = u → h.leader u = none → ρ.log = l)
  votes_ok : ∀ u c, (u, c) ∈ ρ.votes → u ≤ ρ.term ∧ ∃ l, candidacy c u = some l ∧
    (h.leader u = none → ∀ t p, t < u → p < ρ.ack t → h.Own termOf t p → h.Kept t p u l)
  ack_ok : ∀ t p, p < ρ.ack t → p < (h.canon t).length ∧ t ≤ ρ.term
  retained : ∀ t p, p < ρ.ack t → h.Kept t p (ρ.term + 1) ρ.log
  committed : ρ.commit ≤ ρ.log.length ∧ (ρ.commit = 0 ∨ ∃ t p, C t p ∧ t ≤ ρ.term ∧
    ρ.commit ≤ p + 1 ∧ ρ.log.take ρ.commit <+: h.canon t)

/-- How a replica may change while the leaders' logs stay: nothing that was promised in an
earlier term is touched. -/
structure Advance (ρ ρ' : Replica ι E) : Prop where
  term : ρ.term ≤ ρ'.term
  ack : ∀ t, ρ.ack t ≤ ρ'.ack t
  ack_past : ∀ t, t < ρ.term → ρ'.ack t = ρ.ack t
  candidacy : ∀ u l, ρ.candidacy u = some l → ρ'.candidacy u = some l
  votes : ρ.votes ⊆ ρ'.votes
  commit : ρ.commit ≤ ρ'.commit

/-- The acknowledgement of the log to the leader of the present term. -/
def acknowledged (ρ : Replica ι E) : Replica ι E :=
  { ρ with ack := Function.update ρ.ack ρ.term (max (ρ.ack ρ.term) ρ.log.length) }

/-- The log of a candidate, kept under its term. -/
def standing (ρ : Replica ι E) : Replica ι E :=
  { ρ with candidacy := Function.update ρ.candidacy ρ.term (some ρ.log) }

/-- A candidate of the next term, with its vote for itself. -/
def campaign (ρ : Replica ι E) (n : ι) : Replica ι E :=
  { ρ with
    term := ρ.term + 1
    votes := insert (ρ.term + 1, n) ρ.votes
    candidacy := Function.update ρ.candidacy (ρ.term + 1) (some ρ.log) }

theorem standing_candidacy_of_ne (ρ : Replica ι E) {u : ℕ} (hu : u ≠ ρ.term) :
    ρ.standing.candidacy u = ρ.candidacy u := Function.update_of_ne hu ..

theorem standing_candidacy_self (ρ : Replica ι E) :
    ρ.standing.candidacy ρ.term = some ρ.log := Function.update_self ..

theorem acknowledged_ack_of_ne (ρ : Replica ι E) {t : ℕ} (ht : t ≠ ρ.term) :
    ρ.acknowledged.ack t = ρ.ack t := Function.update_of_ne ht ..

theorem acknowledged_ack_self (ρ : Replica ι E) :
    ρ.acknowledged.ack ρ.term = max (ρ.ack ρ.term) ρ.log.length := Function.update_self ..

theorem lt_acknowledged_ack {ρ : Replica ι E} {t p : ℕ} (hp : p < ρ.acknowledged.ack t) :
    p < ρ.ack t ∨ t = ρ.term ∧ p < ρ.log.length := by
  by_cases ht : t = ρ.term
  · subst ht
    rw [acknowledged_ack_self, lt_max_iff] at hp
    exact hp.imp_right fun hlen => ⟨rfl, hlen⟩
  · rw [acknowledged_ack_of_ne ρ ht] at hp
    exact Or.inl hp

theorem Advance.refl (ρ : Replica ι E) : Advance ρ ρ where
  term := le_rfl
  ack := fun _ => le_rfl
  ack_past := fun _ _ => rfl
  candidacy := fun _ _ h => h
  votes := Set.Subset.rfl
  commit := le_rfl

theorem advance_standing {ρ : Replica ι E} (hnone : ρ.candidacy ρ.term = none) :
    Advance ρ ρ.standing where
  __ := Advance.refl ρ
  candidacy := by
    intro u l hl
    have hne : u ≠ ρ.term := by
      rintro rfl
      exact absurd (hl.symm.trans hnone) (Option.some_ne_none l)
    rwa [standing_candidacy_of_ne ρ hne]

theorem advance_acknowledged (ρ : Replica ι E) : Advance ρ ρ.acknowledged where
  __ := Advance.refl ρ
  ack := by
    intro t
    by_cases ht : t = ρ.term
    · subst ht
      rw [acknowledged_ack_self]
      exact le_max_left _ _
    · rw [acknowledged_ack_of_ne ρ ht]
  ack_past := fun _ ht => acknowledged_ack_of_ne ρ ht.ne

namespace Ok

variable {termOf} {h h' : LogHistory ι E} {candidacy candidacy' : ι → ℕ → Option (List E)}
  {C C' : ℕ → ℕ → Prop} {n : ι} {ρ : Replica ι E}

theorem candidacy_none (hρ : ρ.Ok termOf h candidacy C n) {u : ℕ} (hu : ρ.term < u) :
    candidacy n u = none := by
  by_contra hne
  obtain ⟨l, hl⟩ := Option.ne_none_iff_exists'.mp hne
  have hle := (hρ.candidacy_ok u l hl).1
  omega

/-- Other replicas may become candidates, and more may become committed. -/
theorem mono (hρ : ρ.Ok termOf h candidacy C n) (hself : candidacy' n = candidacy n)
    (hcand : ∀ c u l, candidacy c u = some l → candidacy' c u = some l)
    (hC : ∀ t p, C t p → C' t p) : ρ.Ok termOf h candidacy' C' n where
  sourced := hρ.sourced
  term_le := hρ.term_le
  candidacy_ok := by
    rw [hself]
    exact hρ.candidacy_ok
  votes_ok := by
    intro u c hv
    obtain ⟨hu, l, hl, hkept⟩ := hρ.votes_ok u c hv
    exact ⟨hu, l, hcand c u l hl, hkept⟩
  ack_ok := hρ.ack_ok
  retained := hρ.retained
  committed := by
    obtain ⟨hle, hc⟩ := hρ.committed
    refine ⟨hle, hc.imp_right ?_⟩
    rintro ⟨t, p, hcom, hrest⟩
    exact ⟨t, p, hC t p hcom, hrest⟩

theorem grow (hρ : ρ.Ok termOf h candidacy C n) (hok : h.Ok termOf)
    (hg : Grows termOf h h') (hC : ∀ t p, C t p → C' t p) : ρ.Ok termOf h' candidacy C' n := by
  have hnone : ∀ u, h'.leader u = none → h.leader u = none := by
    intro u hu
    by_contra hne
    exact hg.leader_ne_none hne hu
  exact {
    sourced := hρ.sourced.mono hg
    term_le := hρ.term_le
    candidacy_ok := by
      intro u l hl
      obtain ⟨hu, hs, hterms, hlog⟩ := hρ.candidacy_ok u l hl
      exact ⟨hu, hs.mono hg, hterms, fun ht hlead => hlog ht (hnone u hlead)⟩
    votes_ok := by
      intro u c hv
      obtain ⟨hu, l, hl, hkept⟩ := hρ.votes_ok u c hv
      refine ⟨hu, l, hl, fun hlead t p ht hp hown => ?_⟩
      have hlen := (hρ.ack_ok t p hp).1
      exact (hkept (hnone u hlead) t p ht hp ((own_iff hg hlen).mp hown)).mono hok hg hlen
    ack_ok := by
      intro t p hp
      obtain ⟨hlen, ht⟩ := hρ.ack_ok t p hp
      exact ⟨hlen.trans_le (hg.canon t).length_le, ht⟩
    retained := fun t p hp => (hρ.retained t p hp).mono hok hg (hρ.ack_ok t p hp).1
    committed := by
      obtain ⟨hle, hc⟩ := hρ.committed
      refine ⟨hle, hc.imp_right ?_⟩
      rintro ⟨t, p, hcom, ht, hcp, hpre⟩
      exact ⟨t, p, hC t p hcom, ht, hcp, hpre.trans (hg.canon t)⟩ }

theorem raise (hρ : ρ.Ok termOf h candidacy C n) {u : ℕ} (hu : ρ.term ≤ u) :
    ({ ρ with term := u } : Replica ι E).Ok termOf h candidacy C n where
  sourced := hρ.sourced
  term_le := fun e he => (hρ.term_le e he).trans hu
  candidacy_ok := by
    intro v l hl
    obtain ⟨hv, hs, hterms, hlog⟩ := hρ.candidacy_ok v l hl
    exact ⟨hv.trans hu, hs, hterms, fun he => hlog (le_antisymm (hu.trans_eq he) hv)⟩
  votes_ok := by
    intro v c hvote
    obtain ⟨hv, hrest⟩ := hρ.votes_ok v c hvote
    exact ⟨hv.trans hu, hrest⟩
  ack_ok := fun t p hp => ⟨(hρ.ack_ok t p hp).1, (hρ.ack_ok t p hp).2.trans hu⟩
  retained := fun t p hp => (hρ.retained t p hp).mono_term (Nat.succ_le_succ hu)
  committed := by
    obtain ⟨hle, hc⟩ := hρ.committed
    refine ⟨hle, hc.imp_right ?_⟩
    rintro ⟨t, p, hcom, ht, hrest⟩
    exact ⟨t, p, hcom, ht.trans hu, hrest⟩

theorem standing (hρ : ρ.Ok termOf h candidacy C n) (hterms : ∀ e ∈ ρ.log, termOf e < ρ.term)
    (hown : candidacy n = ρ.candidacy) (hself : candidacy' n = ρ.standing.candidacy)
    (hcand : ∀ c u l, candidacy c u = some l → candidacy' c u = some l) :
    ρ.standing.Ok termOf h candidacy' C n where
  sourced := hρ.sourced
  term_le := hρ.term_le
  candidacy_ok := by
    intro u l hl
    rw [hself] at hl
    by_cases hu : u = ρ.term
    · subst hu
      rw [standing_candidacy_self] at hl
      obtain rfl := Option.some.inj hl
      exact ⟨le_rfl, hρ.sourced, hterms, fun _ _ => rfl⟩
    · rw [standing_candidacy_of_ne ρ hu, ← hown] at hl
      exact hρ.candidacy_ok u l hl
  votes_ok := by
    intro u c hv
    obtain ⟨hu, l, hl, hkept⟩ := hρ.votes_ok u c hv
    exact ⟨hu, l, hcand c u l hl, hkept⟩
  ack_ok := hρ.ack_ok
  retained := hρ.retained
  committed := hρ.committed

/-- A vote for a candidate of the present term whose log is up to date. -/
theorem vote (hρ : ρ.Ok termOf h candidacy C n) (hok : h.Ok termOf) {c : ι} {l : List E}
    (hl : candidacy c ρ.term = some l) (hs : h.Sourced termOf l)
    (hterms : ∀ e ∈ l, termOf e < ρ.term) (hup : UpToDate termOf l ρ.log) :
    ({ ρ with votes := insert (ρ.term, c) ρ.votes } : Replica ι E).Ok termOf h candidacy C n where
  sourced := hρ.sourced
  term_le := hρ.term_le
  candidacy_ok := hρ.candidacy_ok
  votes_ok := by
    intro u c' hv
    rcases Set.mem_insert_iff.mp hv with hnew | hold
    · obtain ⟨rfl, rfl⟩ := Prod.mk.inj hnew
      refine ⟨le_rfl, l, hl, fun hlead t p _ hp hown => ?_⟩
      have hkept : h.Kept t p ρ.term ρ.log := by
        rcases hρ.retained t p hp with hpre | ⟨v, htv, hvu, hlv, hnot⟩
        · exact Or.inl hpre
        · -- the present term has no leader yet
          have hne : v ≠ ρ.term := by
            rintro rfl
            exact hlv hlead
          exact Or.inr ⟨v, htv, by omega, hlv, hnot⟩
      exact hkept.of_upToDate hok hs hρ.sourced hterms hup hown
    · exact hρ.votes_ok u c' hold
  ack_ok := hρ.ack_ok
  retained := hρ.retained
  committed := hρ.committed

/-- The present leader's part of the log, or a cut above what the two logs share. -/
theorem accept (hρ : ρ.Ok termOf h candidacy C n) (hok : h.Ok termOf)
    (hlead : h.leader ρ.term ≠ none)
    (hC : ∀ t p, C t p → t < ρ.term → (h.canon t).take (p + 1) <+: h.canon ρ.term) {l : List E}
    (hfrom : l <+: h.canon ρ.term ∨ l <+: ρ.log)
    (hcut : ∀ x, x <+: h.canon ρ.term → x <+: ρ.log → x <+: l) :
    ({ ρ with log := l } : Replica ι E).Ok termOf h candidacy C n where
  sourced := by
    rcases hfrom with hpre | hpre
    · exact (hok.sourced _).of_isPrefix hpre
    · exact hρ.sourced.of_isPrefix hpre
  term_le := by
    intro e he
    rcases hfrom with hpre | hpre
    · exact hok.term_le _ e (hpre.subset he)
    · exact hρ.term_le e (hpre.subset he)
  candidacy_ok := by
    intro u l' hl'
    obtain ⟨hu, hs, hterms, -⟩ := hρ.candidacy_ok u l' hl'
    -- the present term has a leader, so nobody is still a candidate in it
    refine ⟨hu, hs, hterms, fun he hnone => ?_⟩
    have hterm : ρ.term = u := he
    exact absurd (hterm ▸ hnone) hlead
  votes_ok := hρ.votes_ok
  ack_ok := hρ.ack_ok
  retained := by
    intro t p hp
    rcases hρ.retained t p hp with hpre | hlost
    · by_cases hin : (h.canon t).take (p + 1) <+: h.canon ρ.term
      · exact Or.inl (hcut _ hin hpre)
      · -- the present leader itself lacks it
        have hne : t ≠ ρ.term := by
          rintro rfl
          exact hin (List.take_prefix _ _)
        have hlt : t < ρ.term := lt_of_le_of_ne (hρ.ack_ok t p hp).2 hne
        exact Or.inr ⟨ρ.term, hlt, Nat.lt_succ_self _, hlead, hin⟩
    · exact Or.inr hlost
  committed := by
    obtain ⟨hle, hc⟩ := hρ.committed
    rcases hc with h0 | ⟨t, p, hcom, ht, hcp, hpre⟩
    · exact ⟨by simp [h0], Or.inl h0⟩
    have hlen : (ρ.log.take ρ.commit).length = ρ.commit := List.length_take_of_le hle
    -- the committed part is shared with the present leader, so the cut is above it
    have hcanon : ρ.log.take ρ.commit <+: h.canon ρ.term := by
      rcases Nat.lt_or_eq_of_le ht with hlt | rfl
      · have htake : ρ.log.take ρ.commit <+: (h.canon t).take (p + 1) :=
          prefix_take_self hpre (hlen.trans_le hcp)
        exact htake.trans (hC t p hcom hlt)
      · exact hpre
    have hkeep : ρ.log.take ρ.commit <+: l := hcut _ hcanon (List.take_prefix _ _)
    have hsame : l.take ρ.commit = ρ.log.take ρ.commit := by
      rw [take_eq_of_isPrefix hkeep hlen.ge, List.take_take, min_self]
    refine ⟨hlen.symm.trans_le hkeep.length_le, Or.inr ⟨t, p, hcom, ht, hcp, ?_⟩⟩
    exact hsame.symm ▸ hpre

theorem acknowledged (hρ : ρ.Ok termOf h candidacy C n) (hpre : ρ.log <+: h.canon ρ.term) :
    ρ.acknowledged.Ok termOf h candidacy C n where
  sourced := hρ.sourced
  term_le := hρ.term_le
  candidacy_ok := hρ.candidacy_ok
  votes_ok := by
    intro u c hv
    obtain ⟨hu, l, hl, hkept⟩ := hρ.votes_ok u c hv
    refine ⟨hu, l, hl, fun hnone t p ht hp hown => hkept hnone t p ht ?_ hown⟩
    exact (lt_acknowledged_ack hp).resolve_right fun hself => by omega
  ack_ok := by
    intro t p hp
    rcases lt_acknowledged_ack hp with hold | ⟨rfl, hlen⟩
    · exact hρ.ack_ok t p hold
    · exact ⟨hlen.trans_le hpre.length_le, le_rfl⟩
  retained := by
    intro t p hp
    rcases lt_acknowledged_ack hp with hold | ⟨rfl, hlen⟩
    · exact hρ.retained t p hold
    · refine Or.inl ?_
      rw [take_eq_of_isPrefix hpre hlen]
      exact List.take_prefix _ _
  committed := hρ.committed

theorem commitTo (hρ : ρ.Ok termOf h candidacy C n) {k t p : ℕ} (hk : k ≤ ρ.log.length)
    (hC : C t p) (ht : t ≤ ρ.term) (hkp : k ≤ p + 1) (hpre : ρ.log.take k <+: h.canon t) :
    ({ ρ with commit := k } : Replica ι E).Ok termOf h candidacy C n where
  sourced := hρ.sourced
  term_le := hρ.term_le
  candidacy_ok := hρ.candidacy_ok
  votes_ok := hρ.votes_ok
  ack_ok := hρ.ack_ok
  retained := hρ.retained
  committed := ⟨hk, Or.inr ⟨t, p, hC, ht, hkp, hpre⟩⟩

end Ok

end Replica

end Wardex.Lib
