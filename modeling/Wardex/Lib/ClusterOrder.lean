import Mathlib.Data.List.Sort
import Wardex.Lib.Clustering

/-! When greedy clustering does not depend on the order of its groups.  The groups come in two
kinds, all of the first kind before all of the second, and within a kind in any order. -/

namespace Wardex.Lib

variable {α : Type*}

/-! ## The clusters to be expected -/

/-- The old clusters with the groups that are at home in them. -/
def gathered (old : ℕ → Set α) (gs : List (Set α)) (i : ℕ) : Set α :=
  old i ∪ {x | ∃ G ∈ gs, Home old G i ∧ x ∈ G}

/-- What an old cluster may come to hold: what it holds, and every group that meets this and no
cluster before. -/
def reach (old : ℕ → Set α) (gs : List (Set α)) (i : ℕ) : Set α :=
  {x | ∀ S : Set α, old i ⊆ S →
    (∀ G ∈ gs, (∀ j < i, ¬ Meets (old j) G) → Meets S G → G ⊆ S) → x ∈ S}

variable {old : ℕ → Set α} {gs : List (Set α)} {G : Set α} {i j : ℕ}

theorem subset_gathered (old : ℕ → Set α) (gs : List (Set α)) (i : ℕ) :
    old i ⊆ gathered old gs i := Set.subset_union_left

theorem Home.subset_gathered (h : Home old G i) (hG : G ∈ gs) : G ⊆ gathered old gs i :=
  fun _ hx => .inr ⟨G, hG, h, hx⟩

theorem subset_reach (old : ℕ → Set α) (gs : List (Set α)) (i : ℕ) : old i ⊆ reach old gs i :=
  fun _ hx _ hS _ => hS hx

theorem reach_closed (hG : G ∈ gs) (hfirst : ∀ j < i, ¬ Meets (old j) G)
    (h : Meets (reach old gs i) G) : G ⊆ reach old gs i := by
  intro x hx S hold hS
  have hsub : reach old gs i ⊆ S := fun y hy => hy S hold hS
  exact hS G hG hfirst (h.mono hsub subset_rfl) hx

/-- Clusters `I`, groups `T` of the first kind, and groups `D` of the second.  A group that an
earlier cluster may draw to itself is in its own cluster already, and the earlier one gets all of
it anyway; the groups at home nowhere meet as an equivalence, and no group of the second kind joins
two that do not meet; and a group of the first kind is part of the first cluster that it meets in
the end. -/
structure Orderly (I : ℕ → Set α) (T D : List (Set α)) : Prop where
  drawn : ∀ G ∈ T, ∀ i, (∀ j ≤ i, ¬ Meets (I j) G) → Meets (reach I T i) G →
    (∃ j, Home I G j ∧ G ⊆ I j) ∧ G ⊆ gathered (gathered I T) D i
  chained : ∀ A ∈ T, ∀ B ∈ T, ∀ C ∈ T, Free I A → Free I B → Free I C →
    Meets A B → Meets B C → Meets A C
  bridged : ∀ B ∈ D, Free (gathered I T) B → ∀ A ∈ T, ∀ C ∈ T, Meets A B → Meets C B → Meets A C
  absorbed : ∀ G ∈ T, ∀ i, Home (gathered (gathered I T) D) G i →
    G ⊆ gathered (gathered I T) D i

variable {I : ℕ → Set α} {T D : List (Set α)} {c : Clusters α} {done : Set (Set α)}

theorem Orderly.reach_subset (h : Orderly I T D) (i : ℕ) :
    reach I T i ⊆ gathered (gathered I T) D i := by
  have hboth : reach I T i ⊆ reach I T i ∩ gathered (gathered I T) D i := by
    intro x hx
    refine hx _ (Set.subset_inter (subset_reach I T i) ?_) fun G hG hfirst hmeets => ?_
    · exact (subset_gathered I T i).trans (subset_gathered _ D i)
    · have hreach : Meets (reach I T i) G := hmeets.mono Set.inter_subset_left subset_rfl
      refine Set.subset_inter (reach_closed hG hfirst hreach) ?_
      by_cases hi : Meets (I i) G
      · exact (Home.subset_gathered ⟨hi, hfirst⟩ hG).trans (subset_gathered _ D i)
      · refine (h.drawn G hG i (fun j hj => ?_) hreach).2
        rcases hj.lt_or_eq with hlt | rfl
        · exact hfirst j hlt
        · exact hi
  exact hboth.trans Set.inter_subset_right

/-! ## The groups of the first kind -/

structure Placed (I : ℕ → Set α) (T : List (Set α)) (done : Set (Set α)) (c : Clusters α) :
    Prop where
  low : ∀ i, I i ⊆ c.old i
  high : ∀ i, c.old i ⊆ reach I T i
  homed : ∀ G ∈ done, ∀ i, Home I G i → G ⊆ c.old i
  parted : Parted {G | G ∈ done ∧ Free I G} c.new

theorem placed_start (I : ℕ → Set α) (T : List (Set α)) : Placed I T ∅ ⟨I, []⟩ := by
  refine ⟨fun _ => subset_rfl, subset_reach I T, fun _ h => h.elim, ?_⟩
  have hnone : {G | G ∈ (∅ : Set (Set α)) ∧ Free I G} = ∅ := by
    ext G
    exact iff_of_false (fun h => h.1.elim) id
  rw [hnone]
  exact parted_nil

/-- A group joins an old cluster.  Where it is at home elsewhere, it is drawn. -/
theorem Placed.join_home (horderly : Orderly I T D) (h : Placed I T done c) (hG : G ∈ T)
    (hhome : Home c.old G i) : Placed I T (insert G done) (c.join G) := by
  have hfirst : ∀ j < i, ¬ Meets (I j) G := fun j hj hmeets =>
    hhome.first j hj (hmeets.mono (h.low j) subset_rfl)
  have hreach : Meets (reach I T i) G := hhome.meets.mono (h.high i) subset_rfl
  have hdrawn (hi : ¬ Meets (I i) G) : ∃ j, Home I G j ∧ G ⊆ I j := by
    refine (horderly.drawn G hG i (fun j hj => ?_) hreach).1
    rcases hj.lt_or_eq with hlt | rfl
    · exact hfirst j hlt
    · exact hi
  rw [Clusters.join_of_home hhome]
  refine ⟨fun j => (h.low j).trans (subset_grow _ _ _ _), fun j => ?_, ?_, ?_⟩
  · refine grow_subset (h.high j) ?_
    rintro rfl
    exact reach_closed hG hfirst hreach
  · rintro H (rfl | hH) k hk
    · by_cases hi : Meets (I i) H
      · obtain rfl : i = k := Home.unique ⟨hi, hfirst⟩ hk
        exact subset_grow_self _ _ _
      · obtain ⟨j, hj, hsub⟩ := hdrawn hi
        obtain rfl := hj.unique hk
        exact (hsub.trans (h.low j)).trans (subset_grow _ _ _ _)
    · exact (h.homed H hH k hk).trans (subset_grow _ _ _ _)
  · have hfree : ¬ Free I G := by
      intro hfree
      obtain ⟨j, hj, -⟩ := hdrawn (hfree i)
      exact hj.not_free hfree
    have hsame : {H | H ∈ insert G done ∧ Free I H} = {H | H ∈ done ∧ Free I H} := by
      ext H
      refine ⟨?_, fun ⟨hH, hf⟩ => ⟨Set.mem_insert_of_mem G hH, hf⟩⟩
      rintro ⟨rfl | hH, hf⟩
      · exact absurd hf hfree
      · exact ⟨hH, hf⟩
    rw [hsame]
    exact h.parted

theorem Placed.join_free (horderly : Orderly I T D) (h : Placed I T done c) (hG : G ∈ T)
    (hne : G.Nonempty) (hdone : ∀ H ∈ done, H ∈ T) (hfree : Free c.old G) :
    Placed I T (insert G done) (c.join G) := by
  have hfreeI : Free I G := fun i hmeets => hfree i (hmeets.mono (h.low i) subset_rfl)
  rw [Clusters.join_of_free hfree]
  refine ⟨h.low, h.high, ?_, ?_⟩
  · rintro H (rfl | hH) k hk
    · exact absurd hfreeI hk.not_free
    · exact h.homed H hH k hk
  · have hinsert : {H | H ∈ insert G done ∧ Free I H} = insert G {H | H ∈ done ∧ Free I H} := by
      ext H
      constructor
      · rintro ⟨rfl | hH, hf⟩
        · exact Set.mem_insert _ _
        · exact Set.mem_insert_of_mem _ ⟨hH, hf⟩
      · rintro (rfl | ⟨hH, hf⟩)
        · exact ⟨Set.mem_insert _ _, hfreeI⟩
        · exact ⟨Set.mem_insert_of_mem _ hH, hf⟩
    rw [hinsert]
    refine h.parted.settle_of_chained hne ?_
    rintro A ⟨hA, hAfree⟩ C ⟨hC, hCfree⟩
    exact horderly.chained A (hdone A hA) G hG C (hdone C hC) hAfree hfreeI hCfree

theorem Placed.run (horderly : Orderly I T D) (hT : ∀ G ∈ T, G.Nonempty) {gs : List (Set α)}
    (hgs : ∀ G ∈ gs, G ∈ T) (h : Placed I T done c) (hdone : ∀ H ∈ done, H ∈ T) :
    Placed I T (done ∪ {G | G ∈ gs}) (c.run gs) := by
  induction gs generalizing done c with
  | nil => simpa [Clusters.run] using h
  | cons G gs ih =>
    obtain ⟨hG, hgs⟩ := List.forall_mem_cons.mp hgs
    have hjoin : Placed I T (insert G done) (c.join G) := by
      rcases home_or_free c.old G with ⟨i, hhome⟩ | hfree
      · exact h.join_home horderly hG hhome
      · exact h.join_free horderly hG (hT G hG) hdone hfree
    have hall := ih hgs hjoin fun H hH => hH.elim (fun h => h ▸ hG) (hdone H)
    have hset : insert G done ∪ {H | H ∈ gs} = done ∪ {H | H ∈ G :: gs} := by
      ext H
      simp [or_assoc, or_left_comm]
    rwa [hset] at hall

/-! ## The groups of the second kind -/

def expected (I : ℕ → Set α) (T D : List (Set α)) : ℕ → Set α := gathered (gathered I T) D

/-- The groups of the first kind, and those done of the second, that are at home nowhere. -/
def strays (I : ℕ → Set α) (T : List (Set α)) (done : Set (Set α)) : Set (Set α) :=
  {G | G ∈ T ∧ Free I G} ∪ {B | B ∈ done ∧ Free (gathered I T) B}

structure Followed (I : ℕ → Set α) (T D : List (Set α)) (done : Set (Set α)) (c : Clusters α) :
    Prop where
  low : ∀ i, gathered I T i ⊆ c.old i
  high : ∀ i, c.old i ⊆ expected I T D i
  homed : ∀ B ∈ done, ∀ i, Home (gathered I T) B i → B ⊆ c.old i
  parted : Parted (strays I T done) c.new

theorem Placed.followed (horderly : Orderly I T D) (h : Placed I T {G | G ∈ T} c) :
    Followed I T D ∅ c := by
  refine ⟨fun i => ?_, fun i => (h.high i).trans (horderly.reach_subset i), fun _ h => h.elim, ?_⟩
  · rintro x (hx | ⟨G, hG, hhome, hx⟩)
    · exact h.low i hx
    · exact h.homed G hG i hhome hx
  · have hnone : {B | B ∈ (∅ : Set (Set α)) ∧ Free (gathered I T) B} = ∅ := by
      ext B
      exact iff_of_false (fun h => h.1.elim) id
    rw [strays, hnone, Set.union_empty]
    exact h.parted

/-- The groups of the second kind are apart from each other. -/
def Distinct (D : List (Set α)) : Prop := ∀ B ∈ D, ∀ B' ∈ D, Meets B B' → B = B'

variable {B : Set α}

/-- What the groups of the second kind add does not change where they are at home. -/
theorem meets_gathered_of_expected (hD : Distinct D) (hB : B ∈ D)
    (h : Meets (expected I T D i) B) : Meets (gathered I T i) B := by
  obtain ⟨x, hx | ⟨B', hB', hhome, hx'⟩, hxB⟩ := h
  · exact meets_of_mem hx hxB
  · obtain rfl := hD B' hB' B hB (meets_of_mem hx' hxB)
    exact hhome.meets

theorem Followed.home (hD : Distinct D) (h : Followed I T D done c) (hB : B ∈ D)
    (hhome : Home c.old B i) : Home (gathered I T) B i :=
  ⟨meets_gathered_of_expected hD hB (hhome.meets.mono (h.high i) subset_rfl),
    fun j hj hmeets => hhome.first j hj (hmeets.mono (h.low j) subset_rfl)⟩

theorem Followed.join_home (hD : Distinct D) (h : Followed I T D done c) (hB : B ∈ D)
    (hhome : Home c.old B i) : Followed I T D (insert B done) (c.join B) := by
  have hhomeJ : Home (gathered I T) B i := h.home hD hB hhome
  rw [Clusters.join_of_home hhome]
  refine ⟨fun j => (h.low j).trans (subset_grow _ _ _ _), fun j => ?_, ?_, ?_⟩
  · refine grow_subset (h.high j) ?_
    rintro rfl
    exact hhomeJ.subset_gathered hB
  · rintro B' (rfl | hB') k hk
    · obtain rfl := hhomeJ.unique hk
      exact subset_grow_self _ _ _
    · exact (h.homed B' hB' k hk).trans (subset_grow _ _ _ _)
  · have hsame : strays I T (insert B done) = strays I T done := by
      ext B'
      refine or_congr_right ⟨?_, fun ⟨hB', hf⟩ => ⟨Set.mem_insert_of_mem B hB', hf⟩⟩
      rintro ⟨rfl | hB', hf⟩
      · exact absurd hf hhomeJ.not_free
      · exact ⟨hB', hf⟩
    rw [hsame]
    exact h.parted

theorem Followed.join_free (horderly : Orderly I T D) (hD : Distinct D)
    (h : Followed I T D done c) (hB : B ∈ D) (hne : B.Nonempty) (hdone : ∀ B' ∈ done, B' ∈ D)
    (hfree : Free c.old B) : Followed I T D (insert B done) (c.join B) := by
  have hfreeJ : Free (gathered I T) B := fun i hmeets =>
    hfree i (hmeets.mono (h.low i) subset_rfl)
  rw [Clusters.join_of_free hfree]
  refine ⟨h.low, h.high, ?_, ?_⟩
  · rintro B' (rfl | hB') k hk
    · exact absurd hfreeJ hk.not_free
    · exact h.homed B' hB' k hk
  · have hinsert : strays I T (insert B done) = insert B (strays I T done) := by
      ext B'
      constructor
      · rintro (hT | ⟨rfl | hB', hf⟩)
        · exact Set.mem_insert_of_mem _ (.inl hT)
        · exact Set.mem_insert _ _
        · exact Set.mem_insert_of_mem _ (.inr ⟨hB', hf⟩)
      · rintro (rfl | hT | ⟨hB', hf⟩)
        · exact .inr ⟨Set.mem_insert _ _, hfreeJ⟩
        · exact .inl hT
        · exact .inr ⟨Set.mem_insert_of_mem _ hB', hf⟩
    rw [hinsert]
    refine h.parted.settle hne fun N hN M hM hNB hMB => ?_
    by_cases hmem : B ∈ done
    · have hstray : B ∈ strays I T done := .inr ⟨hmem, hfreeJ⟩
      have hBN : B ⊆ N := h.parted.subset_of_meets hstray hN hNB.symm
      exact h.parted.apart.eq_of_meets hN hM (hMB.symm.mono hBN subset_rfl)
    · have hfirst {N : Set α} (hN : N ∈ c.new) (hNB : Meets N B) :
          ∃ A ∈ T, Meets A B ∧ A ⊆ N := by
        obtain ⟨x, hxN, hxB⟩ := hNB
        obtain ⟨A, hA, hxA⟩ := (h.parted.made N hN).2 x hxN
        have hAN : A ⊆ N := h.parted.subset_of_meets hA hN (meets_of_mem hxA hxN)
        rcases hA with ⟨hA, -⟩ | ⟨hA, -⟩
        · exact ⟨A, hA, meets_of_mem hxA hxB, hAN⟩
        · obtain rfl := hD A (hdone A hA) B hB (meets_of_mem hxA hxB)
          exact absurd hA hmem
      obtain ⟨A, hA, hAB, hAN⟩ := hfirst hN hNB
      obtain ⟨C, hC, hCB, hCM⟩ := hfirst hM hMB
      have hmeets : Meets A C := horderly.bridged B hB hfreeJ A hA C hC hAB hCB
      exact h.parted.apart.eq_of_meets hN hM (hmeets.mono hAN hCM)

theorem Followed.run (horderly : Orderly I T D) (hD : Distinct D) (hne : ∀ B ∈ D, B.Nonempty)
    {ds : List (Set α)} (hds : ∀ B ∈ ds, B ∈ D) (h : Followed I T D done c)
    (hdone : ∀ B ∈ done, B ∈ D) : Followed I T D (done ∪ {B | B ∈ ds}) (c.run ds) := by
  induction ds generalizing done c with
  | nil => simpa [Clusters.run] using h
  | cons B ds ih =>
    obtain ⟨hB, hds⟩ := List.forall_mem_cons.mp hds
    have hjoin : Followed I T D (insert B done) (c.join B) := by
      rcases home_or_free c.old B with ⟨i, hhome⟩ | hfree
      · exact h.join_home hD hB hhome
      · exact h.join_free horderly hD hB (hne B hB) hdone hfree
    have hall := ih hds hjoin fun B' hB' => hB'.elim (fun h => h ▸ hB) (hdone B')
    have hset : insert B done ∪ {B' | B' ∈ ds} = done ∪ {B' | B' ∈ B :: ds} := by
      ext B'
      simp [or_assoc, or_left_comm]
    rwa [hset] at hall

/-! ## Every order at once -/

/-- The clusters after all groups. -/
structure Arrived (I : ℕ → Set α) (T D : List (Set α)) (c : Clusters α) : Prop where
  old : c.old = expected I T D
  parted : Parted (strays I T {B | B ∈ D}) c.new

theorem Clusters.run_append (c : Clusters α) (gs hs : List (Set α)) :
    c.run (gs ++ hs) = (c.run gs).run hs := List.foldl_append

theorem Orderly.arrived (horderly : Orderly I T D) (hT : ∀ G ∈ T, G.Nonempty)
    (hne : ∀ B ∈ D, B.Nonempty) (hD : Distinct D) {T' D' : List (Set α)} (hT' : T'.Perm T)
    (hD' : D'.Perm D) : Arrived I T D (Clusters.run ⟨I, []⟩ (T' ++ D')) := by
  have hplaced := (placed_start I T).run horderly hT (fun G hG => hT'.mem_iff.mp hG)
    fun _ h => h.elim
  have hall : ∅ ∪ {G | G ∈ T'} = {G | G ∈ T} := by
    ext G
    simp [hT'.mem_iff]
  rw [hall] at hplaced
  have hfollowed := (hplaced.followed horderly).run horderly hD hne
    (fun B hB => hD'.mem_iff.mp hB) fun _ h => h.elim
  have hall' : ∅ ∪ {B | B ∈ D'} = {B | B ∈ D} := by
    ext B
    simp [hD'.mem_iff]
  rw [hall', ← Clusters.run_append] at hfollowed
  refine ⟨funext fun i => Set.Subset.antisymm (hfollowed.high i) ?_, hfollowed.parted⟩
  rintro x (hx | ⟨B, hB, hhome, hx⟩)
  · exact hfollowed.low i hx
  · exact hfollowed.homed B hB i hhome hx

/-- Once all have arrived, a group that comes again changes nothing. -/
theorem Arrived.join_eq_self (horderly : Orderly I T D) (hT : ∀ G ∈ T, G.Nonempty)
    (hne : ∀ B ∈ D, B.Nonempty) (hD : Distinct D) (h : Arrived I T D c) (hG : G ∈ T ++ D) :
    c.join G = c := by
  have hnonempty : G.Nonempty := (List.mem_append.mp hG).elim (hT G) (hne G)
  rcases home_or_free c.old G with ⟨i, hhome⟩ | hfree
  · rw [Clusters.join_of_home hhome, grow_eq_self]
    rw [h.old] at hhome ⊢
    rcases List.mem_append.mp hG with hG | hG
    · exact horderly.absorbed G hG i hhome
    · have hhomeJ : Home (gathered I T) G i :=
        ⟨meets_gathered_of_expected hD hG hhome.meets,
          fun j hj hmeets => hhome.first j hj (hmeets.mono (subset_gathered _ D j) subset_rfl)⟩
      exact hhomeJ.subset_gathered hG
  · rw [Clusters.join_of_free hfree]
    rw [h.old] at hfree
    have hfreeJ : Free (gathered I T) G := fun i hmeets =>
      hfree i (hmeets.mono (subset_gathered _ D i) subset_rfl)
    have hstray : G ∈ strays I T {B | B ∈ D} := by
      rcases List.mem_append.mp hG with hG | hG
      · exact .inl ⟨hG, fun i hmeets => hfreeJ i (hmeets.mono (subset_gathered _ T i) subset_rfl)⟩
      · exact .inr ⟨hG, hfreeJ⟩
    obtain ⟨N, hN, hsub⟩ := h.parted.covered G hstray
    rw [settle_eq_self h.parted.apart hnonempty hN hsub]

/-- The order within the kinds does not matter, no two new clusters overlap, and the groups may come
again in any order without a change. -/
structure Steady (I : ℕ → Set α) (T D : List (Set α)) : Prop where
  old : ∀ T' T'' D' D'' : List (Set α), T'.Perm T → T''.Perm T → D'.Perm D → D''.Perm D →
    (Clusters.run ⟨I, []⟩ (T' ++ D')).old = (Clusters.run ⟨I, []⟩ (T'' ++ D'')).old
  new : ∀ T' T'' D' D'' : List (Set α), T'.Perm T → T''.Perm T → D'.Perm D → D''.Perm D →
    ∀ N ∈ (Clusters.run ⟨I, []⟩ (T' ++ D')).new, N ∈ (Clusters.run ⟨I, []⟩ (T'' ++ D'')).new
  apart : ∀ T' D' : List (Set α), T'.Perm T → D'.Perm D →
    Apart (Clusters.run ⟨I, []⟩ (T' ++ D')).new
  idle : ∀ T' T'' D' D'' : List (Set α), T'.Perm T → T''.Perm T → D'.Perm D → D''.Perm D →
    (Clusters.run ⟨I, []⟩ (T' ++ D')).run (T'' ++ D'') = Clusters.run ⟨I, []⟩ (T' ++ D')

theorem Clusters.run_eq_self {gs : List (Set α)} (h : ∀ G ∈ gs, c.join G = c) :
    c.run gs = c := by
  induction gs with
  | nil => rfl
  | cons G gs ih =>
    obtain ⟨hG, hgs⟩ := List.forall_mem_cons.mp h
    rw [run, List.foldl_cons, hG]
    exact ih hgs

theorem Orderly.steady (horderly : Orderly I T D) (hT : ∀ G ∈ T, G.Nonempty)
    (hne : ∀ B ∈ D, B.Nonempty) (hD : Distinct D) : Steady I T D where
  old T' T'' D' D'' hT' hT'' hD' hD'' :=
    (horderly.arrived hT hne hD hT' hD').old.trans (horderly.arrived hT hne hD hT'' hD'').old.symm
  new T' T'' D' D'' hT' hT'' hD' hD'' N hN :=
    (horderly.arrived hT hne hD hT' hD').parted.mem_of_mem
      (horderly.arrived hT hne hD hT'' hD'').parted hN
  apart T' D' hT' hD' := (horderly.arrived hT hne hD hT' hD').parted.apart
  idle T' T'' D' D'' hT' hT'' hD' hD'' := by
    refine Clusters.run_eq_self fun G hG => ?_
    refine (horderly.arrived hT hne hD hT' hD').join_eq_self horderly hT hne hD ?_
    exact ((hT''.append hD'').mem_iff).mp hG

theorem gathered_of_free (h : ∀ G ∈ gs, Free old G) : gathered old gs = old := by
  funext i
  refine Set.union_eq_self_of_subset_right ?_
  rintro x ⟨G, hG, hhome, -⟩
  exact absurd (h G hG) hhome.not_free

/-- Groups that meet no cluster and no other group are orderly. -/
theorem orderly_of_free (hfree : ∀ G ∈ T, Free I G) (hT : Distinct T) : Orderly I T [] := by
  have hgathered : gathered (gathered I T) [] = I := by
    rw [gathered_of_free fun G hG => absurd hG List.not_mem_nil, gathered_of_free hfree]
  refine ⟨fun G hG i hfirst hmeets => ?_, fun A hA B hB C _ _ _ _ hAB hBC => ?_,
    fun B hB => absurd hB List.not_mem_nil, fun G hG i hhome => ?_⟩
  · have hreach : reach I T i ⊆ I i := fun x hx =>
      hx (I i) subset_rfl fun H hH _ hmeets => absurd hmeets (hfree H hH i)
    exact absurd (hmeets.mono hreach subset_rfl) (hfirst i le_rfl)
  · obtain rfl := hT A hA B hB hAB
    exact hBC
  · rw [hgathered] at hhome
    exact absurd (hfree G hG) hhome.not_free

end Wardex.Lib
