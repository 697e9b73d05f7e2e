import Wardex.Lib.Replication

/-! The actions of the replication protocol, the invariant they keep, and its consequence:
whatever two replicas have committed, at whatever two moments, agrees. -/

namespace Wardex.Lib

open LogHistory

namespace Replicas

variable {ι E : Type*} {termOf : E → ℕ} {U : Finset ι} {r r' : Replicas ι E} {n : ι}

/-! ## Promotion -/

/-- The log with which `n` becomes the leader of its term. -/
def promote (r : Replicas ι E) (n : ι) : Replicas ι E :=
  { r with history :=
    { leader := Function.update r.history.leader (r.replica n).term (some n)
      canon := Function.update r.history.canon (r.replica n).term (r.replica n).log } }

theorem promote_leader_ne (r : Replicas ι E) {n : ι} {t : ℕ} (ht : t ≠ (r.replica n).term) :
    (r.promote n).history.leader t = r.history.leader t := Function.update_of_ne ht ..

theorem promote_canon_ne (r : Replicas ι E) {n : ι} {t : ℕ} (ht : t ≠ (r.replica n).term) :
    (r.promote n).history.canon t = r.history.canon t := Function.update_of_ne ht ..

theorem promote_leader_self (r : Replicas ι E) (n : ι) :
    (r.promote n).history.leader (r.replica n).term = some n := Function.update_self ..

theorem promote_canon_self (r : Replicas ι E) (n : ι) :
    (r.promote n).history.canon (r.replica n).term = (r.replica n).log := Function.update_self ..

theorem Core.grows_promote (h : Core termOf U r)
    (hnone : r.history.leader (r.replica n).term = none) :
    Grows termOf r.history (r.promote n).history where
  leader := by
    intro t c hc
    rw [promote_leader_ne r, hc]
    rintro rfl
    rw [hnone] at hc
    cases hc
  canon := by
    intro t
    by_cases ht : t = (r.replica n).term
    · subst ht
      rw [h.history.led _ hnone]
      exact List.nil_prefix
    · rw [promote_canon_ne r ht]
  fresh := by
    intro t l hlead _ hl
    rwa [promote_canon_ne r] at hl
    rintro rfl
    exact hlead hnone

/-- A majority voted for the candidacy that the new leader's log still is. -/
theorem Core.candidacy_of_elected (h : Core termOf U r)
    (hnone : r.history.leader (r.replica n).term = none)
    (hvotes : Ballot.Elected U r.votes (r.replica n).term n) :
    r.candidacy n (r.replica n).term = some (r.replica n).log ∧
      ∀ e ∈ (r.replica n).log, termOf e < (r.replica n).term := by
  obtain ⟨S, hS, hv⟩ := hvotes
  have hne : S.Nonempty := by
    refine Finset.card_pos.mp ?_
    have hlt := hS.card_lt
    omega
  obtain ⟨v, hvS⟩ := hne
  obtain ⟨-, l, hl, -⟩ := (h.replica v).votes_ok _ n (hv v hvS)
  obtain ⟨-, -, hterms, hlog⟩ := (h.replica n).candidacy_ok _ l hl
  have hsame : (r.replica n).log = l := hlog rfl hnone
  rw [hsame]
  exact ⟨hl, hterms⟩

theorem Core.ok_promote (h : Core termOf U r)
    (hnone : r.history.leader (r.replica n).term = none)
    (hterms : ∀ e ∈ (r.replica n).log, termOf e < (r.replica n).term) :
    (r.promote n).history.Ok termOf where
  sourced := by
    intro t
    refine Sourced.mono (h.grows_promote hnone) ?_
    by_cases ht : t = (r.replica n).term
    · subst ht
      rw [promote_canon_self]
      exact (h.replica n).sourced
    · rw [promote_canon_ne r ht]
      exact h.history.sourced t
  term_le := by
    intro t e he
    by_cases ht : t = (r.replica n).term
    · subst ht
      rw [promote_canon_self] at he
      exact (hterms e he).le
    · rw [promote_canon_ne r ht] at he
      exact h.history.term_le t e he
  led := by
    intro t hlead
    by_cases ht : t = (r.replica n).term
    · subst ht
      rw [promote_leader_self] at hlead
      cases hlead
    · rw [promote_leader_ne r ht] at hlead
      rw [promote_canon_ne r ht]
      exact h.history.led t hlead

theorem Inv.promote (h : Inv termOf U r)
    (hnone : r.history.leader (r.replica n).term = none)
    (hvotes : Ballot.Elected U r.votes (r.replica n).term n) : Inv termOf U (r.promote n) := by
  obtain ⟨hcand, hterms⟩ := h.candidacy_of_elected hnone hvotes
  have hg := h.grows_promote hnone
  refine { toCore := h.grow hg (h.ok_promote hnone hterms) fun u hu hu' => ?_, leads := ?_ }
  · -- the only term with a new leader is the present one
    have hself : u = (r.replica n).term := by
      by_contra hne
      have hkeep := promote_leader_ne r hne
      rw [hu] at hkeep
      exact hu' hkeep
    subst hself
    obtain ⟨S, hS, hv⟩ := hvotes
    refine ⟨S, hS, fun v hvS => ?_⟩
    obtain ⟨hterm, l, hl, hkept⟩ := (h.replica v).votes_ok _ n (hv v hvS)
    rw [hcand] at hl
    obtain rfl := Option.some.inj hl
    refine ⟨hterm, fun t p ht hp hown => ?_⟩
    have hlen := ((h.replica v).ack_ok t p hp).1
    have hk := (hkept hnone t p ht hp ((own_iff hg hlen).mp hown)).mono h.history hg hlen
    have hlog := promote_canon_self r n
    exact hlog.symm ▸ hk
  · intro t m hlead
    by_cases ht : t = (r.replica n).term
    · subst ht
      rw [promote_leader_self] at hlead
      obtain rfl := Option.some.inj hlead
      exact ⟨le_rfl, fun _ => (promote_canon_self r n).symm⟩
    · rw [promote_leader_ne r ht] at hlead
      rw [promote_canon_ne r ht]
      exact h.leads t m hlead

/-! ## Extension -/

/-- The leader `n` makes the entry `e`. -/
def extendCanon (r : Replicas ι E) (n : ι) (e : E) : Replicas ι E :=
  { r with history :=
    { r.history with
      canon := Function.update r.history.canon (r.replica n).term ((r.replica n).log ++ [e]) } }

theorem extendCanon_canon_ne (r : Replicas ι E) {n : ι} (e : E) {t : ℕ}
    (ht : t ≠ (r.replica n).term) : (r.extendCanon n e).history.canon t = r.history.canon t :=
  Function.update_of_ne ht ..

theorem extendCanon_canon_self (r : Replicas ι E) (n : ι) (e : E) :
    (r.extendCanon n e).history.canon (r.replica n).term = (r.replica n).log ++ [e] :=
  Function.update_self ..

theorem Inv.log_of_leader (h : Inv termOf U r)
    (hlead : r.history.leader (r.replica n).term = some n) :
    (r.replica n).log = r.history.canon (r.replica n).term := (h.leads _ n hlead).2 rfl

theorem Inv.grows_extendCanon (h : Inv termOf U r)
    (hlead : r.history.leader (r.replica n).term = some n) {e : E}
    (he : termOf e = (r.replica n).term) :
    Grows termOf r.history (r.extendCanon n e).history where
  leader := fun _ _ hc => hc
  canon := by
    intro t
    by_cases ht : t = (r.replica n).term
    · subst ht
      rw [extendCanon_canon_self, h.log_of_leader hlead]
      exact List.prefix_append _ _
    · rw [extendCanon_canon_ne r e ht]
  fresh := by
    intro t l _ hterms hl
    by_cases ht : t = (r.replica n).term
    · subst ht
      rw [extendCanon_canon_self, List.prefix_concat_iff] at hl
      rcases hl with rfl | hold
      · have hlt := hterms e (List.mem_append_right _ (List.mem_singleton_self e))
        exact absurd he hlt.ne
      · rwa [h.log_of_leader hlead] at hold
    · rwa [extendCanon_canon_ne r e ht] at hl

theorem Inv.ok_extendCanon (h : Inv termOf U r)
    (hlead : r.history.leader (r.replica n).term = some n) {e : E}
    (he : termOf e = (r.replica n).term) : (r.extendCanon n e).history.Ok termOf where
  sourced := by
    intro t
    have hg := h.grows_extendCanon hlead he
    by_cases ht : t = (r.replica n).term
    · subst ht
      rw [extendCanon_canon_self]
      refine ((h.replica n).sourced.mono hg).push ?_
      rw [he, extendCanon_canon_self]
    · rw [extendCanon_canon_ne r e ht]
      exact (h.history.sourced t).mono hg
  term_le := by
    intro t e' he'
    by_cases ht : t = (r.replica n).term
    · subst ht
      rw [extendCanon_canon_self] at he'
      rcases List.mem_append.mp he' with hold | hnew
      · exact (h.replica n).term_le e' hold
      · rw [List.mem_singleton.mp hnew]
        exact he.le
    · rw [extendCanon_canon_ne r e ht] at he'
      exact h.history.term_le t e' he'
  led := by
    intro t hnone
    have hne : t ≠ (r.replica n).term := by
      rintro rfl
      exact absurd (hlead.symm.trans hnone) (Option.some_ne_none n)
    rw [extendCanon_canon_ne r e hne]
    exact h.history.led t hnone

section Extend

variable [DecidableEq ι]

def extend (r : Replicas ι E) (n : ι) (e : E) : Replicas ι E :=
  (r.extendCanon n e).set n { r.replica n with log := (r.replica n).log ++ [e] }

theorem Inv.extend (h : Inv termOf U r) (hlead : r.history.leader (r.replica n).term = some n)
    {e : E} (he : termOf e = (r.replica n).term) : Inv termOf U (r.extend n e) := by
  have hg := h.grows_extendCanon hlead he
  have hself := extendCanon_canon_self r n e
  have hcore : Core termOf U (r.extendCanon n e) :=
    h.grow hg (h.ok_extendCanon hlead he) fun u hnone hsome => absurd hnone hsome
  have hne : (r.extendCanon n e).history.leader (r.replica n).term ≠ none := by
    rw [show (r.extendCanon n e).history.leader _ = some n from hlead]
    exact Option.some_ne_none n
  refine { toCore := hcore.set_same ?_ rfl ?_, leads := ?_ }
  · exact { Replica.Advance.refl (r.replica n) with }
  · refine (hcore.replica n).accept hcore.history hne ?_ ?_ ?_
    · intro t p hC ht
      exact hcore.completeness hC _ ht hne
    · exact Or.inl (hself ▸ List.prefix_rfl)
    · intro x _ hx
      exact hx.trans (List.prefix_append _ _)
  · intro t m hm
    obtain ⟨ht, hlog⟩ := h.leads t m hm
    by_cases hmn : m = n
    · subst hmn
      rw [Replicas.extend, set_replica_self]
      refine ⟨ht, fun hterm => ?_⟩
      have hterm' : (r.replica m).term = t := hterm
      rw [← hterm']
      exact hself.symm
    · rw [Replicas.extend, set_replica_ne _ hmn]
      have hne' : t ≠ (r.replica n).term := by
        rintro rfl
        exact hmn (Option.some.inj (hm.symm.trans hlead))
      refine ⟨ht, fun hterm => (hlog hterm).trans ?_⟩
      exact (extendCanon_canon_ne r e hne').symm

end Extend

/-! ## All actions -/

/-- No term has a leader yet, and no replica has done anything. -/
def new : Replicas ι E where
  history := { leader := fun _ => none, canon := fun _ => [] }
  replica := fun _ =>
    { term := 0, log := [], commit := 0, votes := ∅, ack := fun _ => 0, candidacy := fun _ => none }

theorem inv_new : Inv termOf U (new : Replicas ι E) where
  history :=
    { sourced := fun _ => Sourced.nil _
      term_le := fun _ _ he => by cases he
      led := fun _ _ => rfl }
  replica := fun _ =>
    { sourced := Sourced.nil _
      term_le := fun _ he => by cases he
      candidacy_ok := fun _ _ hl => by cases hl
      votes_ok := fun _ _ hv => by cases hv
      ack_ok := fun _ _ hp => by cases hp
      retained := fun _ _ hp => by cases hp
      committed := ⟨le_rfl, Or.inl rfl⟩ }
  backed := fun _ hu => absurd rfl hu
  leads := fun _ _ hlead => by cases hlead

section Step

variable [DecidableEq ι]

variable (termOf U) in
inductive Step (r : Replicas ι E) : Replicas ι E → Prop
  | raise (n : ι) (u : ℕ) (hu : (r.replica n).term ≤ u) :
    Step r (r.set n { r.replica n with term := u })
  | stand (n : ι) (hnone : r.candidacy n (r.replica n).term = none)
    (hterms : ∀ e ∈ (r.replica n).log, termOf e < (r.replica n).term) :
    Step r (r.set n (r.replica n).standing)
  | vote (n c : ι) (l : List E) (hl : r.candidacy c (r.replica n).term = some l)
    (hup : UpToDate termOf l (r.replica n).log) :
    Step r (r.set n { r.replica n with
      votes := insert ((r.replica n).term, c) (r.replica n).votes })
  | promote (n : ι) (hnone : r.history.leader (r.replica n).term = none)
    (hvotes : Ballot.Elected U r.votes (r.replica n).term n) : Step r (r.promote n)
  | extend (n : ι) (e : E) (hlead : r.history.leader (r.replica n).term = some n)
    (he : termOf e = (r.replica n).term) : Step r (r.extend n e)
  | accept (n c : ι) (l : List E) (hlead : r.history.leader (r.replica n).term = some c)
    (hne : c ≠ n) (hfrom : l <+: r.history.canon (r.replica n).term ∨ l <+: (r.replica n).log)
    (hcut : ∀ x, x <+: r.history.canon (r.replica n).term → x <+: (r.replica n).log → x <+: l) :
    Step r (r.set n { r.replica n with log := l })
  | acknowledge (n : ι) (hpre : (r.replica n).log <+: r.history.canon (r.replica n).term) :
    Step r (r.set n (r.replica n).acknowledged)
  | commitTo (n : ι) (k t p : ℕ) (hmono : (r.replica n).commit ≤ k)
    (hk : k ≤ (r.replica n).log.length) (hC : r.Committed termOf U t p)
    (ht : t ≤ (r.replica n).term) (hkp : k ≤ p + 1)
    (hpre : (r.replica n).log.take k <+: r.history.canon t) :
    Step r (r.set n { r.replica n with commit := k })

/-- Every action keeps the invariant and takes nothing back. -/
theorem Step.inv (hs : Step termOf U r r') (h : Inv termOf U r) :
    Inv termOf U r' ∧ Extends termOf r r' := by
  -- for the actions that leave term and log of the replica alone
  have hlog : ∀ n t, r.history.leader t = some n → (r.replica n).term = t →
      (r.replica n).log = r.history.canon t := fun n t hlead => (h.leads t n hlead).2
  cases hs with
  | raise n u hu =>
    refine h.set_same ?_ rfl ((h.replica n).raise hu) fun t hlead hut => ?_
    · exact { Replica.Advance.refl (r.replica n) with term := hu }
    · obtain ⟨ht, hsame⟩ := h.leads t n hlead
      exact hsame (le_antisymm (hu.trans_eq hut) ht)
  | stand n hnone hterms =>
    have hadv := Replica.advance_standing hnone
    have hself : (r.set n (r.replica n).standing).candidacy n =
        (r.replica n).standing.candidacy := by rw [candidacy, set_replica_self]
    have hext : Extends termOf r (r.set n (r.replica n).standing) := extends_set hadv
    exact h.set hadv ((h.replica n).standing hterms rfl hself hext.candidacy) (hlog n)
  | vote n c l hl hup =>
    obtain ⟨-, hsourced, hterms, -⟩ := (h.replica c).candidacy_ok _ l hl
    have hok := (h.replica n).vote h.history hl hsourced hterms hup
    refine h.set_same ?_ rfl hok (hlog n)
    exact { Replica.Advance.refl (r.replica n) with votes := Set.subset_insert _ _ }
  | promote n hnone hvotes =>
    exact ⟨h.promote hnone hvotes, Extends.of_grows (h.grows_promote hnone)⟩
  | extend n e hlead he =>
    refine ⟨h.extend hlead he, ?_⟩
    have hgrow : Extends termOf r (r.extendCanon n e) :=
      Extends.of_grows (h.grows_extendCanon hlead he)
    exact hgrow.trans (extends_set { Replica.Advance.refl (r.replica n) with })
  | accept n c l hlead hne hfrom hcut =>
    have hsome : r.history.leader (r.replica n).term ≠ none := by
      rw [hlead]
      exact Option.some_ne_none c
    have hok := (h.replica n).accept h.history hsome
      (fun t p hC ht => h.completeness hC _ ht hsome) hfrom hcut
    refine h.set_same ?_ rfl hok fun t hlead' hterm => ?_
    · exact { Replica.Advance.refl (r.replica n) with }
    · subst hterm
      exact absurd (Option.some.inj (hlead.symm.trans hlead')) hne
  | acknowledge n hpre =>
    exact h.set_same (r.replica n).advance_acknowledged rfl ((h.replica n).acknowledged hpre)
      (hlog n)
  | commitTo n k t p hmono hk hC ht hkp hpre =>
    refine h.set_same ?_ rfl ((h.replica n).commitTo hk hC ht hkp hpre) (hlog n)
    exact { Replica.Advance.refl (r.replica n) with commit := hmono }

variable (termOf U) in
def Steps : Replicas ι E → Replicas ι E → Prop := Relation.ReflTransGen (Step termOf U)

theorem Steps.inv (hs : Steps termOf U r r') (h : Inv termOf U r) :
    Inv termOf U r' ∧ Extends termOf r r' := by
  induction hs with
  | refl => exact ⟨h, Extends.refl r⟩
  | tail _ hstep ih =>
    obtain ⟨hinv, hext⟩ := ih
    obtain ⟨hinv', hext'⟩ := hstep.inv hinv
    exact ⟨hinv', hext.trans hext'⟩

/-- The first `k` entries, the same in both logs when both replicas have committed them. -/
theorem Extends.agree (he : Extends termOf r r') (h : Inv termOf U r) (h' : Inv termOf U r')
    {a b : ι} {k : ℕ} (ha : k ≤ (r.replica a).commit) (hb : k ≤ (r'.replica b).commit) :
    (r.replica a).log.take k = (r'.replica b).log.take k := by
  have hpa := he.committedPrefix (h.committedPrefix a)
  have hpb := h'.committedPrefix b
  have hla : k ≤ ((r.replica a).log.take (r.replica a).commit).length := by
    rwa [List.length_take_of_le (h.replica a).committed.1]
  have hlb : k ≤ ((r'.replica b).log.take (r'.replica b).commit).length := by
    rwa [List.length_take_of_le (h'.replica b).committed.1]
  have hcut : ((r.replica a).log.take (r.replica a).commit).take k =
      ((r'.replica b).log.take (r'.replica b).commit).take k := by
    rcases hpa.comparable h'.toCore hpb with hpre | hpre
    · exact (take_eq_of_isPrefix hpre hla).symm
    · exact take_eq_of_isPrefix hpre hlb
  rwa [List.take_take, List.take_take, min_eq_left ha, min_eq_left hb] at hcut

/-! ## Several actions of one replica -/

section Several

variable {ρ : Replica ι E}

namespace Steps

theorem start (r : Replicas ι E) (n : ι) : Steps termOf U r (r.set n (r.replica n)) := by
  rw [set_replica]
  exact Relation.ReflTransGen.refl

theorem step {ρ' : Replica ι E} (h : Steps termOf U r (r.set n ρ))
    (hstep : Step termOf U (r.set n ρ) ((r.set n ρ).set n ρ')) :
    Steps termOf U r (r.set n ρ') := by
  rw [set_set] at hstep
  exact h.tail hstep

theorem raise (h : Steps termOf U r (r.set n ρ)) {u : ℕ} (hu : ρ.term ≤ u) :
    Steps termOf U r (r.set n { ρ with term := u }) := by
  have hstep := @Step.raise _ _ termOf U _ (r.set n ρ) n u
  rw [set_replica_self] at hstep
  exact h.step (hstep hu)

theorem standing (h : Steps termOf U r (r.set n ρ)) (hnone : ρ.candidacy ρ.term = none)
    (hterms : ∀ e ∈ ρ.log, termOf e < ρ.term) : Steps termOf U r (r.set n ρ.standing) := by
  have hstep := @Step.stand _ _ termOf U _ (r.set n ρ) n
  rw [candidacy, set_replica_self] at hstep
  exact h.step (hstep hnone hterms)

theorem vote (h : Steps termOf U r (r.set n ρ)) {c : ι} {l : List E}
    (hl : (r.set n ρ).candidacy c ρ.term = some l) (hup : UpToDate termOf l ρ.log) :
    Steps termOf U r (r.set n { ρ with votes := insert (ρ.term, c) ρ.votes }) := by
  have hstep := @Step.vote _ _ termOf U _ (r.set n ρ) n c l
  rw [set_replica_self] at hstep
  exact h.step (hstep hl hup)

theorem accept (h : Steps termOf U r (r.set n ρ)) {c : ι} {l : List E}
    (hlead : r.history.leader ρ.term = some c) (hne : c ≠ n)
    (hfrom : l <+: r.history.canon ρ.term ∨ l <+: ρ.log)
    (hcut : ∀ x, x <+: r.history.canon ρ.term → x <+: ρ.log → x <+: l) :
    Steps termOf U r (r.set n { ρ with log := l }) := by
  have hstep := @Step.accept _ _ termOf U _ (r.set n ρ) n c l
  rw [set_replica_self] at hstep
  exact h.step (hstep hlead hne hfrom hcut)

theorem acknowledge (h : Steps termOf U r (r.set n ρ))
    (hpre : ρ.log <+: r.history.canon ρ.term) : Steps termOf U r (r.set n ρ.acknowledged) := by
  have hstep := @Step.acknowledge _ _ termOf U _ (r.set n ρ) n
  rw [set_replica_self] at hstep
  exact h.step (hstep hpre)

theorem commitTo (h : Steps termOf U r (r.set n ρ)) {k t p : ℕ} (hmono : ρ.commit ≤ k)
    (hk : k ≤ ρ.log.length) (hC : (r.set n ρ).Committed termOf U t p) (ht : t ≤ ρ.term)
    (hkp : k ≤ p + 1) (hpre : ρ.log.take k <+: r.history.canon t) :
    Steps termOf U r (r.set n { ρ with commit := k }) := by
  have hstep := @Step.commitTo _ _ termOf U _ (r.set n ρ) n k t p
  rw [set_replica_self] at hstep
  exact h.step (hstep hmono hk hC ht hkp hpre)

theorem campaign (h : Inv termOf U r) (n : ι) :
    Steps termOf U r (r.set n ((r.replica n).campaign n)) := by
  have hok := h.replica n
  have hraise := (@start _ _ termOf U _ r n).raise (Nat.le_succ (r.replica n).term)
  have hterms : ∀ e ∈ (r.replica n).log, termOf e < (r.replica n).term + 1 :=
    fun e he => Nat.lt_succ_of_le (hok.term_le e he)
  have hstand := hraise.standing (hok.candidacy_none (Nat.lt_succ_self _)) hterms
  refine hstand.vote (l := (r.replica n).log) ?_ fun a ha => ⟨a, ha, Or.inr ⟨rfl, le_rfl⟩⟩
  rw [candidacy, set_replica_self]
  exact Replica.standing_candidacy_self _

/-- A leader that adds an entry holds it itself. -/
theorem extendOwn (n : ι) {e : E} (hlead : r.history.leader (r.replica n).term = some n)
    (he : termOf e = (r.replica n).term) : Steps termOf U r ((r.extend n e).set n
      { r.replica n with log := (r.replica n).log ++ [e] }.acknowledged) := by
  have hself : (r.extend n e).replica n =
      { r.replica n with log := (r.replica n).log ++ [e] } :=
    set_replica_self (r.extendCanon n e) n _
  have hpre : ((r.extend n e).replica n).log <+:
      (r.extend n e).history.canon ((r.extend n e).replica n).term := by
    rw [hself]
    exact (r.extendCanon_canon_self n e) ▸ List.prefix_rfl
  rw [← hself]
  exact (Relation.ReflTransGen.single (Step.extend n e hlead he)).tail (Step.acknowledge n hpre)

end Steps

end Several

end Step

end Replicas

end Wardex.Lib
