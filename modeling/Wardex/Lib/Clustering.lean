import Mathlib.Data.List.Pairwise
import Mathlib.Data.List.Perm.Basic
import Mathlib.Data.Nat.Find
import Mathlib.Data.Set.Lattice

/-! Greedy clustering.  Groups come one after the other; each joins the first cluster that it
meets, the old ones first, and makes a new cluster if it meets none. -/

namespace Wardex.Lib

variable {α : Type*}

def Meets (A B : Set α) : Prop := (A ∩ B).Nonempty

theorem Meets.symm {A B : Set α} (h : Meets A B) : Meets B A := by
  rw [Meets, Set.inter_comm]
  exact h

theorem Meets.mono {A A' B B' : Set α} (h : Meets A B) (hA : A ⊆ A') (hB : B ⊆ B') :
    Meets A' B' := Set.Nonempty.mono (Set.inter_subset_inter hA hB) h

theorem meets_of_mem {A B : Set α} {x : α} (hA : x ∈ A) (hB : x ∈ B) : Meets A B := ⟨x, hA, hB⟩

theorem meets_self {A : Set α} (h : A.Nonempty) : Meets A A := by
  rwa [Meets, Set.inter_self]

/-- The clusters: old ones under their numbers, and new ones in the order of their making. -/
@[ext] structure Clusters (α : Type*) where
  old : ℕ → Set α
  new : List (Set α)

/-- The first old cluster that meets the group. -/
structure Home (old : ℕ → Set α) (G : Set α) (i : ℕ) : Prop where
  meets : Meets (old i) G
  first : ∀ j < i, ¬ Meets (old j) G

def Free (old : ℕ → Set α) (G : Set α) : Prop := ∀ i, ¬ Meets (old i) G

def Apart (new : List (Set α)) : Prop := new.Pairwise fun N M => ¬ Meets N M

/-- The old clusters after a group has joined one of them. -/
def grow (old : ℕ → Set α) (i : ℕ) (G : Set α) : ℕ → Set α :=
  Function.update old i (old i ∪ G)

open Classical in
noncomputable def settle : List (Set α) → Set α → List (Set α)
  | [], G => [G]
  | N :: new, G => if Meets N G then (N ∪ G) :: new else N :: settle new G

namespace Clusters

open Classical in
noncomputable def join (c : Clusters α) (G : Set α) : Clusters α :=
  if h : ∃ i, Meets (c.old i) G then
    { c with old := grow c.old (Nat.find h) G }
  else { c with new := settle c.new G }

noncomputable def run (c : Clusters α) (gs : List (Set α)) : Clusters α := gs.foldl join c

end Clusters

variable {old : ℕ → Set α} {new : List (Set α)} {G H : Set α} {i j : ℕ} {x : α}

/-! ## One group -/

theorem home_or_free (old : ℕ → Set α) (G : Set α) : (∃ i, Home old G i) ∨ Free old G := by
  classical
  by_cases h : ∃ i, Meets (old i) G
  · exact .inl ⟨Nat.find h, Nat.find_spec h, fun j hj => Nat.find_min h hj⟩
  · exact .inr (not_exists.mp h)

theorem Home.unique (h : Home old G i) (h' : Home old G j) : i = j := by
  rcases lt_trichotomy i j with hlt | heq | hlt
  · exact absurd h.meets (h'.first i hlt)
  · exact heq
  · exact absurd h'.meets (h.first j hlt)

theorem Home.not_free (h : Home old G i) : ¬ Free old G := fun hfree => hfree i h.meets

theorem Clusters.join_of_home {c : Clusters α} (h : Home c.old G i) :
    c.join G = { c with old := grow c.old i G } := by
  classical
  have hex : ∃ j, Meets (c.old j) G := ⟨i, h.meets⟩
  have hfind : Nat.find hex = i :=
    Home.unique ⟨Nat.find_spec hex, fun j hj => Nat.find_min hex hj⟩ h
  rw [join, dif_pos hex, hfind]

theorem Clusters.join_of_free {c : Clusters α} (h : Free c.old G) :
    c.join G = { c with new := settle c.new G } := by
  rw [join, dif_neg (not_exists.mpr h)]

theorem subset_grow (old : ℕ → Set α) (i : ℕ) (G : Set α) (j : ℕ) : old j ⊆ grow old i G j := by
  by_cases hj : j = i
  · rw [hj, grow, Function.update_self]
    exact Set.subset_union_left
  · rw [grow, Function.update_of_ne hj]

theorem subset_grow_self (old : ℕ → Set α) (i : ℕ) (G : Set α) : G ⊆ grow old i G i := by
  rw [grow, Function.update_self]
  exact Set.subset_union_right

theorem grow_subset {S : Set α} (hold : old j ⊆ S) (hG : j = i → G ⊆ S) : grow old i G j ⊆ S := by
  by_cases hj : j = i
  · subst hj
    rw [grow, Function.update_self]
    exact Set.union_subset hold (hG rfl)
  · rw [grow, Function.update_of_ne hj]
    exact hold

/-- A group within its cluster changes nothing. -/
theorem grow_eq_self (h : G ⊆ old i) : grow old i G = old := by
  rw [grow, Set.union_eq_self_of_subset_right h, Function.update_eq_self]

theorem settle_cases (new : List (Set α)) (G : Set α) :
    (∃ before N after, new = before ++ N :: after ∧ (∀ M ∈ before, ¬ Meets M G) ∧ Meets N G ∧
        settle new G = before ++ (N ∪ G) :: after) ∨
      ((∀ N ∈ new, ¬ Meets N G) ∧ settle new G = new ++ [G]) := by
  induction new with
  | nil => exact .inr ⟨fun _ h => absurd h List.not_mem_nil, rfl⟩
  | cons M new ih =>
    rw [settle]
    split_ifs with hmeets
    · exact .inl ⟨[], M, new, rfl, fun _ h => absurd h List.not_mem_nil, hmeets, rfl⟩
    · rcases ih with ⟨before, N, after, rfl, hbefore, hN, hsettle⟩ | ⟨hnone, hsettle⟩
      · refine .inl ⟨M :: before, N, after, rfl, ?_, hN, by rw [hsettle]; rfl⟩
        exact List.forall_mem_cons.mpr ⟨hmeets, hbefore⟩
      · exact .inr ⟨List.forall_mem_cons.mpr ⟨hmeets, hnone⟩, by rw [hsettle]; rfl⟩

theorem mem_settle (hx : ∃ N ∈ settle new G, x ∈ N) : (∃ N ∈ new, x ∈ N) ∨ x ∈ G := by
  obtain ⟨M, hM, hx⟩ := hx
  rcases settle_cases new G with ⟨before, N, after, rfl, -, -, hsettle⟩ | ⟨-, hsettle⟩
  · rw [hsettle] at hM
    rcases List.mem_append.mp hM with hM | hM
    · exact .inl ⟨M, List.mem_append_left _ hM, hx⟩
    · rcases List.mem_cons.mp hM with rfl | hM
      · exact hx.imp_left fun hN => ⟨N, by simp, hN⟩
      · exact .inl ⟨M, by simp [hM], hx⟩
  · rw [hsettle] at hM
    rcases List.mem_append.mp hM with hM | hM
    · exact .inl ⟨M, hM, hx⟩
    · exact .inr (List.mem_singleton.mp hM ▸ hx)

/-- Every cluster is still there, perhaps grown. -/
theorem subset_settle (G : Set α) {N : Set α} (hN : N ∈ new) : ∃ M ∈ settle new G, N ⊆ M := by
  rcases settle_cases new G with ⟨before, N', after, rfl, -, -, hsettle⟩ | ⟨-, hsettle⟩
  · rw [hsettle]
    rcases List.mem_append.mp hN with hN | hN
    · exact ⟨N, List.mem_append_left _ hN, subset_rfl⟩
    · rcases List.mem_cons.mp hN with rfl | hN
      · exact ⟨N ∪ G, by simp, Set.subset_union_left⟩
      · exact ⟨N, by simp [hN], subset_rfl⟩
  · exact ⟨N, hsettle ▸ List.mem_append_left _ hN, subset_rfl⟩

theorem subset_settle_self (new : List (Set α)) (G : Set α) : ∃ M ∈ settle new G, G ⊆ M := by
  rcases settle_cases new G with ⟨before, N, after, rfl, -, -, hsettle⟩ | ⟨-, hsettle⟩
  · exact ⟨N ∪ G, by simp [hsettle], Set.subset_union_right⟩
  · exact ⟨G, by simp [hsettle], subset_rfl⟩

/-- Clusters that overlap go on overlapping. -/
theorem Apart.of_settle (h : Apart (settle new G)) : Apart new := by
  rcases settle_cases new G with ⟨before, N, after, rfl, -, -, hsettle⟩ | ⟨-, hsettle⟩
  · rw [Apart, hsettle, List.pairwise_append, List.pairwise_cons] at h
    obtain ⟨hbefore, ⟨hN, hafter⟩, hcross⟩ := h
    rw [Apart, List.pairwise_append, List.pairwise_cons]
    refine ⟨hbefore, ⟨fun M hM hmeets => ?_, hafter⟩, fun M hM M' hM' hmeets => ?_⟩
    · exact hN M hM (hmeets.mono Set.subset_union_left subset_rfl)
    · rcases List.mem_cons.mp hM' with rfl | hM'
      · exact hcross M hM _ List.mem_cons_self (hmeets.mono subset_rfl Set.subset_union_left)
      · exact hcross M hM M' (List.mem_cons_of_mem _ hM') hmeets
  · rw [Apart, hsettle, List.pairwise_append] at h
    exact h.1

/-- A group within a cluster changes nothing. -/
theorem settle_eq_self (hapart : Apart new) (hG : G.Nonempty) {N : Set α} (hN : N ∈ new)
    (hsub : G ⊆ N) : settle new G = new := by
  induction new with
  | nil => exact absurd hN List.not_mem_nil
  | cons M new ih =>
    obtain ⟨hM, hrest⟩ := List.pairwise_cons.mp hapart
    rw [settle]
    rcases List.mem_cons.mp hN with rfl | hN
    · rw [if_pos ((meets_self hG).mono hsub subset_rfl), Set.union_eq_self_of_subset_right hsub]
    · rw [if_neg fun hmeets => hM N hN (hmeets.mono subset_rfl hsub), ih hrest hN]

/-! ## Partitions -/

/-- The clusters are apart, they hold the groups and nothing else, and no cluster is cut by what
cuts no group. -/
structure Parted (P : Set (Set α)) (new : List (Set α)) : Prop where
  apart : Apart new
  covered : ∀ G ∈ P, ∃ N ∈ new, G ⊆ N
  made : ∀ N ∈ new, N.Nonempty ∧ ∀ x ∈ N, ∃ G ∈ P, x ∈ G
  whole : ∀ N ∈ new, ∀ S : Set α, (∀ H ∈ P, Meets H S → H ⊆ S) → Meets N S → N ⊆ S

variable {P : Set (Set α)} {N M : Set α}

theorem parted_nil : Parted (∅ : Set (Set α)) [] :=
  ⟨List.Pairwise.nil, fun _ h => h.elim, fun _ h => absurd h List.not_mem_nil,
    fun _ h => absurd h List.not_mem_nil⟩

theorem Apart.eq_of_meets (h : Apart new) (hN : N ∈ new) (hM : M ∈ new) (hmeets : Meets N M) :
    N = M := by
  by_contra hne
  have hsymm : Std.Symm fun N M : Set α => ¬ Meets N M :=
    ⟨fun _ _ hnot hmeets => hnot hmeets.symm⟩
  exact h.forall hN hM hne hmeets

/-- A group lies in the cluster that it meets. -/
theorem Parted.subset_of_meets (h : Parted P new) (hG : G ∈ P) (hN : N ∈ new)
    (hmeets : Meets G N) : G ⊆ N := by
  obtain ⟨M, hM, hsub⟩ := h.covered G hG
  have heq : M = N := h.apart.eq_of_meets hM hN (hmeets.mono hsub subset_rfl)
  exact heq ▸ hsub

/-- There is only one way to part the groups. -/
theorem Parted.mem_of_mem {new' : List (Set α)} (h : Parted P new) (h' : Parted P new')
    (hN : N ∈ new) : N ∈ new' := by
  obtain ⟨⟨x, hx⟩, hmade⟩ := h.made N hN
  obtain ⟨G, hG, hxG⟩ := hmade x hx
  obtain ⟨M, hM, hsub⟩ := h'.covered G hG
  have hmeets : Meets N M := meets_of_mem hx (hsub hxG)
  have hNM : N ⊆ M := h.whole N hN M (fun H hH => h'.subset_of_meets hH hM) hmeets
  have hMN : M ⊆ N := h'.whole M hM N (fun H hH => h.subset_of_meets hH hN) hmeets.symm
  rwa [Set.Subset.antisymm hNM hMN]

/-- A group that meets at most one cluster is taken in. -/
theorem Parted.settle (h : Parted P new) (hG : G.Nonempty)
    (hone : ∀ N ∈ new, ∀ M ∈ new, Meets N G → Meets M G → N = M) :
    Parted (insert G P) (settle new G) := by
  have hcovered : ∀ H ∈ insert G P, ∃ N ∈ Lib.settle new G, H ⊆ N := by
    rintro H (rfl | hH)
    · exact subset_settle_self new H
    · obtain ⟨N, hN, hsub⟩ := h.covered H hH
      obtain ⟨M, hM, hNM⟩ := subset_settle G hN
      exact ⟨M, hM, hsub.trans hNM⟩
  have hmadeOld : ∀ N ∈ new, N.Nonempty ∧ ∀ x ∈ N, ∃ H ∈ insert G P, x ∈ H := fun N hN =>
    ⟨(h.made N hN).1, fun x hx =>
      have ⟨H, hH, hxH⟩ := (h.made N hN).2 x hx
      ⟨H, Set.mem_insert_of_mem G hH, hxH⟩⟩
  have hwholeOld : ∀ N ∈ new, ∀ S : Set α, (∀ H ∈ insert G P, Meets H S → H ⊆ S) →
      Meets N S → N ⊆ S := fun N hN S hS =>
    h.whole N hN S fun H hH => hS H (Set.mem_insert_of_mem G hH)
  rcases settle_cases new G with
    ⟨before, N, after, rfl, hbefore, hmeets, hsettle⟩ | ⟨hnone, hsettle⟩
  · have hN : N ∈ before ++ N :: after := by simp
    obtain ⟨hapartBefore, hapartN, hcross⟩ := List.pairwise_append.mp h.apart
    obtain ⟨hNafter, hapartAfter⟩ := List.pairwise_cons.mp hapartN
    have hafter : ∀ M ∈ after, ¬ Meets M G := fun M hM hmeetsM => by
      have heq : N = M := hone N hN M (by simp [hM]) hmeets hmeetsM
      exact hNafter M hM (heq ▸ meets_self (h.made N hN).1)
    have hgrown : ∀ M, M ∈ before ++ (N ∪ G) :: after → M = N ∪ G ∨ M ∈ before ++ N :: after := by
      intro M hM
      rcases List.mem_append.mp hM with hM | hM
      · exact .inr (List.mem_append_left _ hM)
      · exact (List.mem_cons.mp hM).imp_right fun hM => by simp [hM]
    refine ⟨?_, hcovered, fun M hM => ?_, fun M hM S hS hMS => ?_⟩
    · rw [Apart, hsettle, List.pairwise_append, List.pairwise_cons]
      refine ⟨hapartBefore, ⟨fun M hM hmeetsM => ?_, hapartAfter⟩, fun M hM M' hM' hmeetsM => ?_⟩
      · obtain ⟨x, hxN | hxG, hxM⟩ := hmeetsM
        · exact hNafter M hM (meets_of_mem hxN hxM)
        · exact hafter M hM (meets_of_mem hxM hxG)
      · rcases List.mem_cons.mp hM' with rfl | hM'
        · obtain ⟨x, hxM, hxN | hxG⟩ := hmeetsM
          · exact hcross M hM N List.mem_cons_self (meets_of_mem hxM hxN)
          · exact hbefore M hM (meets_of_mem hxM hxG)
        · exact hcross M hM M' (List.mem_cons_of_mem _ hM') hmeetsM
    · rw [hsettle] at hM
      rcases hgrown M hM with rfl | hM
      · refine ⟨hG.mono Set.subset_union_right, ?_⟩
        rintro x (hx | hx)
        · exact (hmadeOld N hN).2 x hx
        · exact ⟨G, Set.mem_insert G P, hx⟩
      · exact hmadeOld M hM
    · rw [hsettle] at hM
      rcases hgrown M hM with rfl | hM
      · have hboth : N ⊆ S ∧ G ⊆ S := by
          obtain ⟨x, hxN | hxG, hxS⟩ := hMS
          · have hNS : N ⊆ S := hwholeOld N hN S hS (meets_of_mem hxN hxS)
            exact ⟨hNS, hS G (Set.mem_insert G P) (hmeets.symm.mono subset_rfl hNS)⟩
          · have hGS : G ⊆ S := hS G (Set.mem_insert G P) (meets_of_mem hxG hxS)
            exact ⟨hwholeOld N hN S hS (hmeets.mono subset_rfl hGS), hGS⟩
        exact Set.union_subset hboth.1 hboth.2
      · exact hwholeOld M hM S hS hMS
  · refine ⟨?_, hcovered, fun M hM => ?_, fun M hM S hS hMS => ?_⟩
    · rw [Apart, hsettle, List.pairwise_append]
      refine ⟨h.apart, List.pairwise_singleton _ _, fun M hM M' hM' => ?_⟩
      obtain rfl := List.mem_singleton.mp hM'
      exact hnone M hM
    · rw [hsettle] at hM
      rcases List.mem_append.mp hM with hM | hM
      · exact hmadeOld M hM
      · obtain rfl := List.mem_singleton.mp hM
        exact ⟨hG, fun x hx => ⟨M, Set.mem_insert M P, hx⟩⟩
    · rw [hsettle] at hM
      rcases List.mem_append.mp hM with hM | hM
      · exact hwholeOld M hM S hS hMS
      · obtain rfl := List.mem_singleton.mp hM
        exact hS M (Set.mem_insert M P) hMS

/-- A group through which its neighbours meet already is taken in. -/
theorem Parted.settle_of_chained (h : Parted P new) (hG : G.Nonempty)
    (hchained : ∀ A ∈ P, ∀ C ∈ P, Meets A G → Meets G C → Meets A C) :
    Parted (insert G P) (Lib.settle new G) := by
  refine h.settle hG fun N hN M hM hNG hMG => ?_
  obtain ⟨x, hxN, hxG⟩ := hNG
  obtain ⟨y, hyM, hyG⟩ := hMG
  obtain ⟨A, hA, hxA⟩ := (h.made N hN).2 x hxN
  obtain ⟨C, hC, hyC⟩ := (h.made M hM).2 y hyM
  have hAN : A ⊆ N := h.subset_of_meets hA hN (meets_of_mem hxA hxN)
  have hCM : C ⊆ M := h.subset_of_meets hC hM (meets_of_mem hyC hyM)
  have hmeets : Meets A C := hchained A hA C hC (meets_of_mem hxA hxG) (meets_of_mem hyG hyC)
  exact h.apart.eq_of_meets hN hM (hmeets.mono hAN hCM)

/-- If the clusters stay apart, the group has met at most one of them. -/
theorem Apart.eq_of_settle (h : Apart (Lib.settle new G)) (hN : N ∈ new) (hM : M ∈ new)
    (hNG : Meets N G) (hMG : Meets M G) : N = M := by
  rcases settle_cases new G with ⟨before, N', after, rfl, hbefore, -, hsettle⟩ | ⟨hnone, -⟩
  · rw [Apart, hsettle, List.pairwise_append, List.pairwise_cons] at h
    have honly (L : Set α) (hL : L ∈ before ++ N' :: after) (hLG : Meets L G) : L = N' := by
      rcases List.mem_append.mp hL with hL | hL
      · exact absurd hLG (hbefore L hL)
      · refine (List.mem_cons.mp hL).resolve_right fun hL => ?_
        exact h.2.1.1 L hL (hLG.symm.mono Set.subset_union_right subset_rfl)
    exact (honly N hN hNG).trans (honly M hM hMG).symm
  · exact absurd hNG (hnone N hN)

end Wardex.Lib
