import Mathlib.Logic.Relation
import Wardex.Lib.Ballot
import Wardex.Lib.Replica

/-! Replicated logs as an abstract protocol: what the replicas may do, and why no two of them
ever commit different entries at one position. -/

namespace Wardex.Lib

open LogHistory

structure Replicas (ι E : Type*) where
  history : LogHistory ι E
  replica : ι → Replica ι E

namespace Replicas

variable {ι E : Type*} (termOf : E → ℕ) (U : Finset ι)

/-- A majority has acknowledged an entry that the leader of term `t` made at position `p`. -/
def Committed (r : Replicas ι E) (t p : ℕ) : Prop :=
  r.history.Own termOf t p ∧ ∃ Q, Majority U Q ∧ ∀ v ∈ Q, p < (r.replica v).ack t

def candidacy (r : Replicas ι E) (n : ι) : ℕ → Option (List E) := (r.replica n).candidacy

def votes (r : Replicas ι E) (n : ι) : Set (ℕ × ι) := (r.replica n).votes

/-- The voters of a majority had acknowledged nothing that the leader of term `u` lacks. -/
def Backed (r : Replicas ι E) (u : ℕ) : Prop :=
  ∃ S, Majority U S ∧ ∀ v ∈ S, u ≤ (r.replica v).term ∧
    ∀ t p, t < u → p < (r.replica v).ack t → r.history.Own termOf t p →
      r.history.Kept t p u (r.history.canon u)

structure Core (r : Replicas ι E) : Prop where
  history : r.history.Ok termOf
  replica : ∀ n, (r.replica n).Ok termOf r.history r.candidacy (r.Committed termOf U) n
  backed : ∀ u, r.history.leader u ≠ none → r.Backed termOf U u

structure Inv (r : Replicas ι E) : Prop extends Core termOf U r where
  leads : ∀ t n, r.history.leader t = some n → t ≤ (r.replica n).term ∧
    ((r.replica n).term = t → (r.replica n).log = r.history.canon t)

/-- What can be said about two states of one run. -/
structure Extends (r r' : Replicas ι E) : Prop where
  history : Grows termOf r.history r'.history
  term : ∀ n, (r.replica n).term ≤ (r'.replica n).term
  ack : ∀ n t, (r.replica n).ack t ≤ (r'.replica n).ack t
  commit : ∀ n, (r.replica n).commit ≤ (r'.replica n).commit
  candidacy : ∀ n u l, r.candidacy n u = some l → r'.candidacy n u = some l

/-- The first `k` entries of `l` are committed by the leader of some term. -/
def CommittedPrefix (r : Replicas ι E) (l : List E) : Prop :=
  l = [] ∨ ∃ t p, r.Committed termOf U t p ∧ l.length ≤ p + 1 ∧ l <+: r.history.canon t

variable {termOf U} {r r' : Replicas ι E}

/-! ## Safety -/

/-- Leader completeness: a later leader has everything that is committed. -/
theorem Core.completeness [DecidableEq ι] (h : Core termOf U r) {t p : ℕ}
    (hC : r.Committed termOf U t p) (u : ℕ) (htu : t < u) (hu : r.history.leader u ≠ none) :
    (r.history.canon t).take (p + 1) <+: r.history.canon u := by
  induction u using Nat.strong_induction_on with
  | _ u ih =>
    obtain ⟨hown, Q, hQ, hack⟩ := hC
    obtain ⟨S, hS, hbacked⟩ := h.backed u hu
    -- a voter of the later leader that had acknowledged the position
    obtain ⟨v, hvQ, hvS⟩ := hQ.inter hS
    rcases (hbacked v hvS).2 t p htu (hack v hvQ) hown with hpre | ⟨w, htw, hwu, hw, hnot⟩
    · exact hpre
    · exact absurd (ih w hwu htw hw) hnot

theorem CommittedPrefix.comparable [DecidableEq ι] (h : Core termOf U r) {l l' : List E}
    (hl : r.CommittedPrefix termOf U l) (hl' : r.CommittedPrefix termOf U l') :
    l <+: l' ∨ l' <+: l := by
  rcases hl with rfl | ⟨t, p, hC, hlen, hpre⟩
  · exact Or.inl List.nil_prefix
  rcases hl' with rfl | ⟨t', p', hC', hlen', hpre'⟩
  · exact Or.inr List.nil_prefix
  have hleader : ∀ {t p}, r.Committed termOf U t p → r.history.leader t ≠ none := by
    rintro t p ⟨⟨e, he, -⟩, -⟩
    exact h.history.leader_ne_none (List.mem_of_getElem? he)
  -- the shorter prefix lies in the log of the later of the two leaders
  rcases lt_trichotomy t t' with hlt | rfl | hgt
  · have htake : l <+: (r.history.canon t).take (p + 1) := prefix_take_self hpre hlen
    exact List.prefix_or_prefix_of_prefix
      (htake.trans (h.completeness hC t' hlt (hleader hC'))) hpre'
  · exact List.prefix_or_prefix_of_prefix hpre hpre'
  · have htake : l' <+: (r.history.canon t').take (p' + 1) := prefix_take_self hpre' hlen'
    exact List.prefix_or_prefix_of_prefix hpre
      (htake.trans (h.completeness hC' t hgt (hleader hC)))

theorem Core.committedPrefix (h : Core termOf U r) (n : ι) :
    r.CommittedPrefix termOf U ((r.replica n).log.take (r.replica n).commit) := by
  rcases (h.replica n).committed.2 with h0 | ⟨t, p, hC, -, hle, hpre⟩
  · exact Or.inl (by rw [h0, List.take_zero])
  · exact Or.inr ⟨t, p, hC, (List.length_take_le _ _).trans hle, hpre⟩

namespace Extends

theorem of_grows {h' : LogHistory ι E} (hg : Grows termOf r.history h') :
    Extends termOf r { r with history := h' } where
  history := hg
  term := fun _ => le_rfl
  ack := fun _ _ => le_rfl
  commit := fun _ => le_rfl
  candidacy := fun _ _ _ hl => hl

theorem refl (r : Replicas ι E) : Extends termOf r r := of_grows (Grows.refl _)

theorem trans {r'' : Replicas ι E} (he : Extends termOf r r') (he' : Extends termOf r' r'') :
    Extends termOf r r'' where
  history := he.history.trans he'.history
  term := fun n => (he.term n).trans (he'.term n)
  ack := fun n t => (he.ack n t).trans (he'.ack n t)
  commit := fun n => (he.commit n).trans (he'.commit n)
  candidacy := fun n u l hl => he'.candidacy n u l (he.candidacy n u l hl)

theorem committed (he : Extends termOf r r') {t p : ℕ} (hC : r.Committed termOf U t p) :
    r'.Committed termOf U t p := by
  obtain ⟨hown, Q, hQ, hack⟩ := hC
  exact ⟨(own_iff he.history hown.lt_length).mpr hown, Q, hQ,
    fun v hv => (hack v hv).trans_le (he.ack v t)⟩

theorem committedPrefix (he : Extends termOf r r') {l : List E}
    (hl : r.CommittedPrefix termOf U l) : r'.CommittedPrefix termOf U l := by
  refine hl.imp_right ?_
  rintro ⟨t, p, hC, hlen, hpre⟩
  exact ⟨t, p, he.committed hC, hlen, hpre.trans (he.history.canon t)⟩

end Extends

/-! ## A change of one replica -/

section Update

variable [DecidableEq ι] {n : ι} {ρ : Replica ι E}

def set (r : Replicas ι E) (n : ι) (ρ : Replica ι E) : Replicas ι E :=
  { r with replica := Function.update r.replica n ρ }

theorem set_replica_self (r : Replicas ι E) (n : ι) (ρ : Replica ι E) :
    (r.set n ρ).replica n = ρ := Function.update_self ..

theorem set_replica_ne (r : Replicas ι E) {n m : ι} (hm : m ≠ n) (ρ : Replica ι E) :
    (r.set n ρ).replica m = r.replica m := Function.update_of_ne hm ..

theorem set_set (r : Replicas ι E) (n : ι) (ρ ρ' : Replica ι E) :
    (r.set n ρ).set n ρ' = r.set n ρ' :=
  congrArg (Replicas.mk r.history) (Function.update_idem ..)

theorem set_replica (r : Replicas ι E) (n : ι) : r.set n (r.replica n) = r :=
  congrArg (Replicas.mk r.history) (Function.update_eq_self ..)

theorem set_candidacy (r : Replicas ι E) (h : ρ.candidacy = r.candidacy n) :
    (r.set n ρ).candidacy = r.candidacy := by
  funext m
  by_cases hm : m = n
  · subst hm
    rw [candidacy, set_replica_self, h]
  · rw [candidacy, set_replica_ne r hm]
    rfl

theorem extends_set (hadv : (r.replica n).Advance ρ) : Extends termOf r (r.set n ρ) where
  history := Grows.refl _
  term := by
    intro m
    by_cases hm : m = n
    · subst hm
      rw [set_replica_self]
      exact hadv.term
    · rw [set_replica_ne r hm]
  ack := by
    intro m t
    by_cases hm : m = n
    · subst hm
      rw [set_replica_self]
      exact hadv.ack t
    · rw [set_replica_ne r hm]
  commit := by
    intro m
    by_cases hm : m = n
    · subst hm
      rw [set_replica_self]
      exact hadv.commit
    · rw [set_replica_ne r hm]
  candidacy := by
    intro c u l hl
    by_cases hc : c = n
    · subst hc
      rw [candidacy, set_replica_self]
      exact hadv.candidacy u l hl
    · rw [candidacy, set_replica_ne r hc]
      exact hl

theorem Core.set (h : Core termOf U r) (hadv : (r.replica n).Advance ρ)
    (hok : ρ.Ok termOf r.history (r.set n ρ).candidacy (r.Committed termOf U) n) :
    Core termOf U (r.set n ρ) := by
  have hext : Extends termOf r (r.set n ρ) := extends_set hadv
  have hC : ∀ t p, r.Committed termOf U t p → (r.set n ρ).Committed termOf U t p :=
    fun t p hcom => hext.committed hcom
  exact {
    history := h.history
    replica := by
      intro m
      by_cases hm : m = n
      · subst hm
        rw [set_replica_self]
        exact hok.mono rfl (fun _ _ _ hl => hl) hC
      · rw [set_replica_ne r hm]
        refine (h.replica m).mono ?_ hext.candidacy hC
        rw [candidacy, set_replica_ne r hm]
        rfl
    backed := by
      intro u hu
      obtain ⟨S, hS, hv⟩ := h.backed u hu
      refine ⟨S, hS, fun v hvS => ?_⟩
      obtain ⟨hterm, hkept⟩ := hv v hvS
      by_cases hvn : v = n
      · subst hvn
        rw [set_replica_self]
        -- what the voter acknowledged before term `u` no longer changes
        refine ⟨hterm.trans hadv.term, fun t p ht hp => hkept t p ht ?_⟩
        rwa [← hadv.ack_past t (ht.trans_le hterm)]
      · rw [set_replica_ne r hvn]
        exact ⟨hterm, hkept⟩ }

theorem Core.set_same (h : Core termOf U r) (hadv : (r.replica n).Advance ρ)
    (hcand : ρ.candidacy = r.candidacy n)
    (hok : ρ.Ok termOf r.history r.candidacy (r.Committed termOf U) n) :
    Core termOf U (r.set n ρ) := by
  refine h.set hadv ?_
  rw [set_candidacy r hcand]
  exact hok

theorem Inv.set (h : Inv termOf U r) (hadv : (r.replica n).Advance ρ)
    (hok : ρ.Ok termOf r.history (r.set n ρ).candidacy (r.Committed termOf U) n)
    (hlog : ∀ t, r.history.leader t = some n → ρ.term = t → ρ.log = r.history.canon t) :
    Inv termOf U (r.set n ρ) ∧ Extends termOf r (r.set n ρ) := by
  refine ⟨{ toCore := h.toCore.set hadv hok, leads := fun t m hlead => ?_ }, extends_set hadv⟩
  obtain ⟨ht, hsame⟩ := h.leads t m hlead
  by_cases hm : m = n
  · subst hm
    rw [set_replica_self]
    exact ⟨ht.trans hadv.term, hlog t hlead⟩
  · rw [set_replica_ne r hm]
    exact ⟨ht, hsame⟩

theorem Inv.set_same (h : Inv termOf U r) (hadv : (r.replica n).Advance ρ)
    (hcand : ρ.candidacy = r.candidacy n)
    (hok : ρ.Ok termOf r.history r.candidacy (r.Committed termOf U) n)
    (hlog : ∀ t, r.history.leader t = some n → ρ.term = t → ρ.log = r.history.canon t) :
    Inv termOf U (r.set n ρ) ∧ Extends termOf r (r.set n ρ) := by
  refine h.set hadv ?_ hlog
  rw [set_candidacy r hcand]
  exact hok

end Update

/-! ## A change of the leaders' logs -/

theorem Core.grow (h : Core termOf U r) {h' : LogHistory ι E} (hg : Grows termOf r.history h')
    (hok : h'.Ok termOf)
    (hnew : ∀ u, r.history.leader u = none → h'.leader u ≠ none →
      ({ r with history := h' } : Replicas ι E).Backed termOf U u) :
    Core termOf U ({ r with history := h' } : Replicas ι E) where
  history := hok
  replica := by
    intro n
    exact (h.replica n).grow h.history hg fun t p hC => (Extends.of_grows hg).committed hC
  backed := by
    intro u hu
    by_cases hold : r.history.leader u = none
    · exact hnew u hold hu
    · obtain ⟨S, hS, hv⟩ := h.backed u hold
      refine ⟨S, hS, fun v hvS => ⟨(hv v hvS).1, fun t p ht hp hown => ?_⟩⟩
      have hlen := ((h.replica v).ack_ok t p hp).1
      have hkept := (hv v hvS).2 t p ht hp ((own_iff hg hlen).mp hown)
      exact (hkept.mono h.history hg hlen).mono_log (hg.canon u)

end Replicas

end Wardex.Lib
