import Mathlib.Data.List.Basic
import Mathlib.Data.List.Forall2

/-! Hash chains: blocks that store the digest of their predecessor and a digest of
themselves that covers the stored one; and rows whose digest covers the row and the digest of the
row before it, of which some are deleted. -/

namespace Wardex.Lib

structure Block (δ β : Type*) where
  prev : δ
  body : β
  digest : δ

namespace Block

variable {δ β : Type*} (H : δ → β → δ)

def Sealed (b : Block δ β) : Prop := b.digest = H b.prev b.body

/-- The blocks are sealed and each names the one before it, the first one `p`. -/
def Linked : δ → List (Block δ β) → Prop
  | _, [] => True
  | p, b :: bs => b.prev = p ∧ b.Sealed H ∧ Linked b.digest bs

/-- The digest that the next block of the chain has to store. -/
def tip (p : δ) (bs : List (Block δ β)) : δ := bs.getLast?.elim p digest

variable {H}

theorem tip_append (p : δ) (as bs : List (Block δ β)) : tip p (as ++ bs) = tip (tip p as) bs := by
  unfold tip
  rw [List.getLast?_append]
  cases bs.getLast? <;> rfl

theorem tip_cons (p : δ) (b : Block δ β) (bs : List (Block δ β)) :
    tip p (b :: bs) = tip b.digest bs := tip_append p [b] bs

theorem Linked.append {p : δ} {as bs : List (Block δ β)} :
    Linked H p (as ++ bs) ↔ Linked H p as ∧ Linked H (tip p as) bs := by
  induction as generalizing p with
  | nil => exact (and_iff_right trivial).symm
  | cons a as ih =>
    rw [List.cons_append, Linked, Linked, ih, tip_cons]
    exact ⟨fun ⟨hp, hs, hl, hr⟩ => ⟨⟨hp, hs, hl⟩, hr⟩, fun ⟨⟨hp, hs, hl⟩, hr⟩ => ⟨hp, hs, hl, hr⟩⟩

/-- A block that names another predecessor under its old digest is still sealed exactly if
the two predecessors collide. -/
theorem linked_relink {p q : δ} {b : Block δ β} {bs : List (Block δ β)}
    (h : Linked H p (b :: bs)) :
    Linked H q ({ b with prev := q } :: bs) ↔ H p b.body = H q b.body := by
  obtain ⟨rfl, hs, hl⟩ := h
  exact ⟨fun h' => hs.symm.trans h'.2.1, fun hc => ⟨rfl, hs.trans hc, hl⟩⟩

/-- What holds of the first name and of every digest holds of every name in the chain. -/
theorem Linked.forall_prev {Q : δ → Prop} {p : δ} {bs : List (Block δ β)} (h : Linked H p bs)
    (hp : Q p) (hH : ∀ q c, Q (H q c)) : ∀ b ∈ bs, Q b.prev := by
  induction bs generalizing p with
  | nil => simp
  | cons b bs ih =>
    obtain ⟨rfl, hs, hl⟩ := h
    rintro c (_ | ⟨_, hc⟩)
    · exact hp
    · exact ih hl (hs ▸ hH b.prev b.body) c hc

/-- Two linked chains that end with one digest are one chain, as far as a digest can be read
back: wherever two blocks agree on `key`, their common digest gives the predecessor and the
body. -/
theorem Linked.eq_of_tip {γ : Type*} (key : Block δ β → γ) {p p' : δ}
    {bs bs' : List (Block δ β)} (h : Linked H p bs) (h' : Linked H p' bs')
    (hread : ∀ b ∈ bs, ∀ b' ∈ bs', key b = key b' → H b.prev b.body = H b'.prev b'.body →
      b.prev = b'.prev ∧ b.body = b'.body)
    (hkey : bs.map key = bs'.map key) (htip : tip p bs = tip p' bs') : p = p' ∧ bs = bs' := by
  induction bs generalizing p p' bs' with
  | nil =>
    obtain rfl : bs' = [] := List.map_eq_nil_iff.mp hkey.symm
    exact ⟨htip, rfl⟩
  | cons b bs ih =>
    cases bs' with
    | nil => simp at hkey
    | cons b' bs' =>
      obtain ⟨hkb, hkbs⟩ := List.cons.inj hkey
      obtain ⟨rfl, hs, hl⟩ := h
      obtain ⟨rfl, hs', hl'⟩ := h'
      -- the tails start from the digests of `b` and `b'`
      rw [tip_cons, tip_cons] at htip
      obtain ⟨hd, rfl⟩ := ih hl hl'
        (fun c hc c' hc' => hread c (List.mem_cons_of_mem _ hc) c' (List.mem_cons_of_mem _ hc'))
        hkbs htip
      obtain ⟨hprev, hbody⟩ := hread b (List.mem_cons_self ..) b' (List.mem_cons_self ..) hkb
        (hs.symm.trans (hd.trans hs'))
      refine ⟨hprev, congrArg (· :: bs) ?_⟩
      cases b
      cases b'
      exact Block.mk.injEq .. |>.mpr ⟨hprev, hbody, hd⟩

end Block

/-! ## Rows that are deleted -/

variable {δ ρ : Type*} (H : δ → ρ → δ) (digest : ρ → δ)

/-- Each row has the digest that it gets after the row before it, the first one after `p`. -/
def Digested : δ → List ρ → Prop
  | _, [] => True
  | p, row :: rows => digest row = H p row ∧ Digested (digest row) rows

/-- The digest that comes before the next row. -/
def lastDigest (p : δ) (rows : List ρ) : δ := rows.getLast?.elim p digest

variable {H digest} {p : δ} {rows rows' : List ρ} {row : ρ} {keep : ρ → Bool}

theorem lastDigest_cons :
    lastDigest digest p (row :: rows) = lastDigest digest (digest row) rows := by
  rw [lastDigest, lastDigest, List.getLast?_cons]
  cases rows.getLast? <;> rfl

theorem Digested.append : Digested H digest p (rows ++ rows') ↔
    Digested H digest p rows ∧ Digested H digest (lastDigest digest p rows) rows' := by
  induction rows generalizing p with
  | nil => exact (and_iff_right trivial).symm
  | cons row rows ih => rw [List.cons_append, Digested, Digested, ih, lastDigest_cons, and_assoc]

/-- Rows deleted from the end leave the others as they were. -/
theorem Digested.filter (h : Digested H digest p rows)
    (hlast : rows.Pairwise fun row later => keep later = true → keep row = true) :
    Digested H digest p (rows.filter keep) := by
  induction rows generalizing p with
  | nil => trivial
  | cons row rows ih =>
    obtain ⟨hrow, hrows⟩ := List.pairwise_cons.mp hlast
    by_cases hkeep : keep row = true
    · rw [List.filter_cons_of_pos hkeep]
      exact ⟨h.1, ih h.2 hrows⟩
    · have hnone : (row :: rows).filter keep = [] := by
        refine List.filter_eq_nil_iff.mpr (List.forall_mem_cons.mpr ⟨hkeep, fun later hlater => ?_⟩)
        exact fun hkept => hkeep (hrow later hlater hkept)
      rw [hnone]
      trivial

/-! ## Digests that grow -/

section

variable {rank : δ → ℕ}

/-- The digest before a row is at least the one before all rows. -/
theorem Digested.exists_prev (hgrow : ∀ p row, rank p < rank (H p row))
    (h : Digested H digest p rows) (hrow : row ∈ rows) :
    ∃ q, rank p ≤ rank q ∧ digest row = H q row := by
  induction rows generalizing p with
  | nil => exact absurd hrow List.not_mem_nil
  | cons first rows ih =>
    rcases List.mem_cons.mp hrow with rfl | hrow
    · exact ⟨p, Nat.le_refl _, h.1⟩
    · obtain ⟨q, hle, heq⟩ := ih h.2 hrow
      have hlt : rank p < rank (digest first) := by
        rw [h.1]
        exact hgrow p first
      exact ⟨q, Nat.le_trans (Nat.le_of_lt hlt) hle, heq⟩

/-- Where digests grow and show what they cover, only rows at the end can be deleted. -/
theorem Digested.pairwise_of_filter (hinj : ∀ row, Function.Injective fun p => H p row)
    (hgrow : ∀ p row, rank p < rank (H p row)) (h : Digested H digest p rows)
    (hfilter : Digested H digest p (rows.filter keep)) :
    rows.Pairwise fun row later => keep later = true → keep row = true := by
  induction rows generalizing p with
  | nil => exact List.Pairwise.nil
  | cons row rows ih =>
    by_cases hkeep : keep row = true
    · rw [List.filter_cons_of_pos hkeep] at hfilter
      exact List.pairwise_cons.mpr ⟨fun _ _ _ => hkeep, ih h.2 hfilter.2⟩
    · -- the first row that is kept would follow `p`, and it followed `row` or a later one
      rw [List.filter_cons_of_neg hkeep] at hfilter
      have hnone : ∀ later ∈ rows, ¬ keep later = true := by
        cases hkept : rows.filter keep with
        | nil => exact List.filter_eq_nil_iff.mp hkept
        | cons later kept =>
          have hlater : later ∈ rows.filter keep := hkept ▸ List.mem_cons_self
          obtain ⟨q, hle, heq⟩ := h.2.exists_prev hgrow (List.mem_filter.mp hlater).1
          rw [hkept] at hfilter
          obtain rfl : q = p := hinj later (heq.symm.trans hfilter.1)
          rw [h.1] at hle
          exact absurd hle (Nat.not_le_of_gt (hgrow q row))
      refine List.pairwise_cons.mpr
        ⟨fun later hlater hkept => absurd hkept (hnone later hlater), ?_⟩
      exact List.pairwise_of_forall_mem_list fun _ _ later hlater hkept =>
        absurd hkept (hnone later hlater)

end

/-! ## Two chains with one last digest -/

/-- Where a digest tells the digest before it, and of two related rows also what they have in
common, two chains of related rows that end with one digest have that in common row by row. -/
theorem Digested.forall₂_of_lastDigest {Q : δ → Prop} {R S : ρ → ρ → Prop} {p' : δ}
    (hH : ∀ q row, Q (H q row))
    (hread : ∀ q q' row row', Q q → Q q' → R row row' → H q row = H q' row' → q = q' ∧ S row row')
    (hrows : List.Forall₂ R rows rows') (h : Digested H digest p rows)
    (h' : Digested H digest p' rows') (hp : Q p) (hp' : Q p')
    (hlast : lastDigest digest p rows = lastDigest digest p' rows') :
    p = p' ∧ List.Forall₂ S rows rows' := by
  induction hrows generalizing p p' with
  | nil => exact ⟨hlast, .nil⟩
  | @cons row row' rows rows' hrow hrows ih =>
    -- the rest starts from the digests of the first rows
    rw [lastDigest_cons, lastDigest_cons] at hlast
    have hq := hH p row
    have hq' := hH p' row'
    rw [← h.1] at hq
    rw [← h'.1] at hq'
    obtain ⟨hdigest, hrest⟩ := ih h.2 h'.2 hq hq' hlast
    rw [h.1, h'.1] at hdigest
    obtain ⟨hprev, hfirst⟩ := hread p p' _ _ hp hp' hrow hdigest
    exact ⟨hprev, .cons hfirst hrest⟩

end Wardex.Lib
