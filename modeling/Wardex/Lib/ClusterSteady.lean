import Mathlib.Data.List.Induction
import Wardex.Lib.ClusterOrder

/-! Greedy clustering that does not depend on the order of its groups: what follows from that about
the groups, by way of orders that would tell. -/

namespace Wardex.Lib

variable {α : Type*} {c : Clusters α} {old : ℕ → Set α} {gs : List (Set α)} {G : Set α} {i : ℕ}

/-! ## Growth -/

theorem Clusters.old_subset_join (c : Clusters α) (G : Set α) (i : ℕ) :
    c.old i ⊆ (c.join G).old i := by
  rcases home_or_free c.old G with ⟨j, hhome⟩ | hfree
  · rw [join_of_home hhome]
    exact subset_grow _ _ _ _
  · rw [join_of_free hfree]

theorem Clusters.old_subset_run (c : Clusters α) (gs : List (Set α)) (i : ℕ) :
    c.old i ⊆ (c.run gs).old i := by
  induction gs generalizing c with
  | nil => exact subset_rfl
  | cons G gs ih => exact (c.old_subset_join G i).trans (ih (c.join G))

theorem Clusters.new_subset_run (c : Clusters α) (gs : List (Set α)) {N : Set α}
    (hN : N ∈ c.new) : ∃ M ∈ (c.run gs).new, N ⊆ M := by
  induction gs generalizing c N with
  | nil => exact ⟨N, hN, subset_rfl⟩
  | cons G gs ih =>
    have hjoin : ∃ M ∈ (c.join G).new, N ⊆ M := by
      rcases home_or_free c.old G with ⟨j, hhome⟩ | hfree
      · rw [join_of_home hhome]
        exact ⟨N, hN, subset_rfl⟩
      · rw [join_of_free hfree]
        exact subset_settle G hN
    obtain ⟨M, hM, hNM⟩ := hjoin
    obtain ⟨L, hL, hML⟩ := ih (c.join G) hM
    exact ⟨L, hL, hNM.trans hML⟩

theorem Apart.of_run (h : Apart (c.run gs).new) : Apart c.new := by
  induction gs generalizing c with
  | nil => exact h
  | cons G gs ih =>
    have hjoin : Apart (c.join G).new := ih h
    rcases home_or_free c.old G with ⟨j, hhome⟩ | hfree
    · rwa [Clusters.join_of_home hhome] at hjoin
    · rw [Clusters.join_of_free hfree] at hjoin
      exact hjoin.of_settle

/-! ## Orders in which every group comes home -/

theorem gathered_concat_of_home (h : Home old G i) :
    gathered old (gs ++ [G]) = grow (gathered old gs) i G := by
  funext j
  refine Set.Subset.antisymm ?_ (grow_subset ?_ ?_)
  · rintro x (hx | ⟨H, hH, hhome, hx⟩)
    · exact subset_grow _ _ _ _ (.inl hx)
    · rcases List.mem_append.mp hH with hH | hH
      · exact subset_grow _ _ _ _ (.inr ⟨H, hH, hhome, hx⟩)
      · obtain rfl := List.mem_singleton.mp hH
        obtain rfl := hhome.unique h
        exact subset_grow_self _ _ _ hx
  · rintro x (hx | ⟨H, hH, hhome, hx⟩)
    · exact .inl hx
    · exact .inr ⟨H, List.mem_append_left _ hH, hhome, hx⟩
  · rintro rfl
    exact h.subset_gathered (List.mem_append_right _ (List.mem_singleton_self G))

theorem gathered_concat_of_free (h : Free old G) :
    gathered old (gs ++ [G]) = gathered old gs := by
  funext j
  refine Set.ext fun x => or_congr_right ⟨?_, ?_⟩
  · rintro ⟨H, hH, hhome, hx⟩
    rcases List.mem_append.mp hH with hH | hH
    · exact ⟨H, hH, hhome, hx⟩
    · obtain rfl := List.mem_singleton.mp hH
      exact absurd h hhome.not_free
  · rintro ⟨H, hH, hhome, hx⟩
    exact ⟨H, List.mem_append_left _ hH, hhome, hx⟩

theorem gathered_perm {gs' : List (Set α)} (h : gs'.Perm gs) :
    gathered old gs' = gathered old gs := by
  funext i
  refine Set.ext fun x => or_congr_right ?_
  simp only [h.mem_iff]

/-- The groups that meet come in the order of their homes, the last home first. -/
def Yields (old : ℕ → Set α) (A G : Set α) : Prop :=
  ∀ j, Home old A j → Meets A G → ∃ k ≤ j, Home old G k

open Classical in
/-- In such an order every group comes home. -/
theorem run_of_yields (h : gs.Pairwise (Yields c.old)) :
    c.run gs = ⟨gathered c.old gs, (gs.filter fun G => Free c.old G).foldl settle c.new⟩ := by
  induction gs using List.reverseRecOn with
  | nil =>
    refine Clusters.ext (funext fun i => ?_) rfl
    refine (Set.union_eq_self_of_subset_right ?_).symm
    rintro x ⟨G, hG, -⟩
    exact absurd hG List.not_mem_nil
  | append_singleton gs G ih =>
    obtain ⟨hgs, -, hlast⟩ := List.pairwise_append.mp h
    have hyields : ∀ A ∈ gs, Yields c.old A G := fun A hA =>
      hlast A hA G (List.mem_singleton_self G)
    rw [Clusters.run_append, ih hgs, Clusters.run, List.foldl_cons, List.foldl_nil]
    rcases home_or_free c.old G with ⟨i, hhome⟩ | hfree
    · have hhome' : Home (gathered c.old gs) G i := by
        refine ⟨hhome.meets.mono (subset_gathered _ _ _) subset_rfl, fun j hj hmeets => ?_⟩
        obtain ⟨x, hx | ⟨A, hA, hAhome, hxA⟩, hxG⟩ := hmeets
        · exact hhome.first j hj (meets_of_mem hx hxG)
        · obtain ⟨k, hk, hGhome⟩ := hyields A hA j hAhome (meets_of_mem hxA hxG)
          exact absurd (hGhome.unique hhome) (hk.trans_lt hj).ne
      rw [Clusters.join_of_home hhome', gathered_concat_of_home hhome, List.filter_append,
        List.filter_cons_of_neg (by simpa using hhome.not_free), List.filter_nil, List.append_nil]
    · have hfree' : Free (gathered c.old gs) G := by
        rintro j ⟨x, hx | ⟨A, hA, hAhome, hxA⟩, hxG⟩
        · exact hfree j (meets_of_mem hx hxG)
        · obtain ⟨k, -, hGhome⟩ := hyields A hA j hAhome (meets_of_mem hxA hxG)
          exact hGhome.not_free hfree
      rw [Clusters.join_of_free hfree', gathered_concat_of_free hfree, List.filter_append,
        List.filter_cons_of_pos (by simpa using hfree), List.filter_nil, List.foldl_append]
      rfl

/-- Some order has every home before the earlier ones. -/
theorem exists_yields (I : ℕ → Set α) (T : List (Set α)) :
    ∃ T' : List (Set α), T'.Perm T ∧ T'.Pairwise (Yields I) := by
  classical
  let later (A G : Set α) : Prop := ∀ j, Home I A j → ∃ k ≤ j, Home I G k
  have htotal : Std.Total later := ⟨fun A G => by
    rcases home_or_free I A with ⟨i, hA⟩ | hA
    · rcases home_or_free I G with ⟨k, hG⟩ | hG
      · rcases le_total k i with hle | hle
        · exact .inl fun j hj => ⟨k, hA.unique hj ▸ hle, hG⟩
        · exact .inr fun j hj => ⟨i, hG.unique hj ▸ hle, hA⟩
      · exact .inr fun j hj => absurd hG hj.not_free
    · exact .inl fun j hj => absurd hA hj.not_free⟩
  have htrans : IsTrans (Set α) later := ⟨fun A B G hAB hBG j hj => by
    obtain ⟨k, hk, hB⟩ := hAB j hj
    obtain ⟨l, hl, hG⟩ := hBG k hB
    exact ⟨l, hl.trans hk, hG⟩⟩
  refine ⟨T.insertionSort later, List.perm_insertionSort later T, ?_⟩
  exact (List.pairwise_insertionSort later T).imp fun h j hj _ => h j hj

/-! ## What steadiness says -/

variable {I : ℕ → Set α} {T D : List (Set α)}

theorem Distinct.pairwise (hD : Distinct D) (old : ℕ → Set α) : D.Pairwise (Yields old) := by
  refine List.pairwise_of_forall_mem_list fun A hA B hB j hj hmeets => ?_
  obtain rfl := hD A hA B hB hmeets
  exact ⟨j, le_rfl, hj⟩

theorem Distinct.perm {D' : List (Set α)} (hD : Distinct D) (h : D'.Perm D) : Distinct D' :=
  fun A hA B hB => hD A (h.mem_iff.mp hA) B (h.mem_iff.mp hB)

theorem exists_old_eq (hD : Distinct D) : ∃ T' : List (Set α), T'.Perm T ∧
    (Clusters.run ⟨I, []⟩ T').old = gathered I T ∧
    ∀ D' : List (Set α), D'.Perm D →
      (Clusters.run ⟨I, []⟩ (T' ++ D')).old = expected I T D := by
  obtain ⟨T', hT', hyields⟩ := exists_yields I T
  have hfirst : (Clusters.run ⟨I, []⟩ T').old = gathered I T := by
    rw [run_of_yields hyields]
    exact gathered_perm hT'
  refine ⟨T', hT', hfirst, fun D' hD' => ?_⟩
  rw [Clusters.run_append, run_of_yields ((hD.perm hD').pairwise _), hfirst]
  exact gathered_perm hD'

/-- Groups that can come first. -/
theorem exists_append_perm {first : List (Set α)} (hdistinct : first.Nodup) (hsub : first ⊆ T) :
    ∃ rest : List (Set α), (first ++ rest).Perm T := by
  obtain ⟨kept, hkept, hsublist⟩ := List.subperm_of_subset hdistinct hsub
  obtain ⟨rest, hrest⟩ := hsublist.exists_perm_append
  exact ⟨rest, (hkept.symm.append_right rest).trans hrest.symm⟩

namespace Steady

theorem old_eq (h : Steady I T D) (hD : Distinct D) {T' D' : List (Set α)} (hT' : T'.Perm T)
    (hD' : D'.Perm D) : (Clusters.run ⟨I, []⟩ (T' ++ D')).old = expected I T D := by
  obtain ⟨T₀, hT₀, -, hold⟩ := exists_old_eq (I := I) (T := T) hD
  exact (h.old T' T₀ D' D hT' hT₀ hD' (List.Perm.refl D)).trans (hold D (List.Perm.refl D))

theorem absorbed (h : Steady I T D) (hD : Distinct D) (hG : G ∈ T)
    (hhome : Home (expected I T D) G i) : G ⊆ expected I T D i := by
  obtain ⟨rest, hrest⟩ := exists_append_perm (List.nodup_singleton G) (by simpa using hG)
  have hold := h.old_eq hD (List.Perm.refl T) (List.Perm.refl D)
  have hidle := h.idle T ([G] ++ rest) D D (List.Perm.refl T) hrest (List.Perm.refl D)
    (List.Perm.refl D)
  rw [List.append_assoc, Clusters.run_append] at hidle
  rw [← hold] at hhome ⊢
  have hgrown : G ⊆ ((Clusters.run ⟨I, []⟩ (T ++ D)).run [G]).old i := by
    rw [Clusters.run, List.foldl_cons, List.foldl_nil, Clusters.join_of_home hhome]
    exact subset_grow_self _ _ _
  have hkept := Clusters.old_subset_run ((Clusters.run ⟨I, []⟩ (T ++ D)).run [G]) (rest ++ D) i
  rw [hidle] at hkept
  exact hgrown.trans hkept

/-- Otherwise the outer two would make clusters and the middle one would join one of these. -/
theorem chained (h : Steady I T D) (hT : ∀ G ∈ T, G.Nonempty) {A B C : Set α} (hA : A ∈ T)
    (hB : B ∈ T) (hC : C ∈ T) (hAfree : Free I A) (hBfree : Free I B) (hCfree : Free I C)
    (hAB : Meets A B) (hBC : Meets B C) : Meets A C := by
  by_contra hAC
  have hdistinct : [A, C, B].Nodup := by
    have hne₁ : A ≠ C := fun heq => hAC (heq ▸ meets_self (hT A hA))
    have hne₂ : A ≠ B := fun heq => hAC (heq ▸ hBC)
    have hne₃ : C ≠ B := fun heq => hAC (heq ▸ hAB)
    simp [hne₁, hne₂, hne₃]
  have hsub : [A, C, B] ⊆ T := by
    simp [hA, hB, hC]
  obtain ⟨rest, hrest⟩ := exists_append_perm hdistinct hsub
  have hapart := h.apart ([A, C, B] ++ rest) D hrest (List.Perm.refl D)
  rw [List.append_assoc, Clusters.run_append] at hapart
  have hfirst : Clusters.run ⟨I, []⟩ [A, C, B] = ⟨I, [A ∪ B, C]⟩ := by
    have hjoinA : Clusters.join ⟨I, []⟩ A = ⟨I, [A]⟩ := Clusters.join_of_free hAfree
    have hjoinC : Clusters.join ⟨I, [A]⟩ C = ⟨I, [A, C]⟩ := by
      rw [Clusters.join_of_free hCfree, settle, if_neg hAC, settle]
    have hjoinB : Clusters.join ⟨I, [A, C]⟩ B = ⟨I, [A ∪ B, C]⟩ := by
      rw [Clusters.join_of_free hBfree, settle, if_pos hAB]
    rw [Clusters.run, List.foldl_cons, List.foldl_cons, List.foldl_cons, List.foldl_nil, hjoinA,
      hjoinC, hjoinB]
  have htwo : Apart [A ∪ B, C] := by
    have hrun := hapart.of_run
    rwa [hfirst] at hrun
  have hBC' : ¬ Meets (A ∪ B) C := (List.pairwise_cons.mp htwo).1 C (List.mem_singleton_self C)
  exact hBC' (hBC.mono Set.subset_union_right subset_rfl)

/-- The groups at home nowhere, in any order, part into the new clusters. -/
theorem parted_foldl_settle (h : Steady I T D) (hT : ∀ G ∈ T, G.Nonempty) {fs : List (Set α)}
    (hfs : ∀ G ∈ fs, G ∈ T ∧ Free I G) : Parted {G | G ∈ fs} (fs.foldl settle []) := by
  induction fs using List.reverseRecOn with
  | nil =>
    have hnone : {G | G ∈ ([] : List (Set α))} = ∅ := by
      ext G
      exact iff_of_false List.not_mem_nil id
    rw [hnone]
    exact parted_nil
  | append_singleton fs G ih =>
    have hbefore : ∀ H ∈ fs, H ∈ T ∧ Free I H := fun H hH => hfs H (List.mem_append_left _ hH)
    obtain ⟨hG, hfree⟩ := hfs G (List.mem_append_right _ (List.mem_singleton_self G))
    have hinsert : {H | H ∈ fs ++ [G]} = insert G {H | H ∈ fs} := by
      ext H
      simp [or_comm]
    rw [hinsert, List.foldl_append, List.foldl_cons, List.foldl_nil]
    refine (ih hbefore).settle_of_chained (hT G hG) fun A hA C hC => ?_
    obtain ⟨hA, hAfree⟩ := hbefore A hA
    obtain ⟨hC, hCfree⟩ := hbefore C hC
    exact h.chained hT hA hG hC hAfree hfree hCfree

/-- An order of the first kind in which every group comes home, and the groups at home nowhere
part into the new clusters. -/
theorem exists_parted (h : Steady I T D) (hT : ∀ G ∈ T, G.Nonempty) :
    ∃ T' : List (Set α), T'.Perm T ∧ (Clusters.run ⟨I, []⟩ T').old = gathered I T ∧
      Parted {G | G ∈ T ∧ Free I G} (Clusters.run ⟨I, []⟩ T').new := by
  classical
  obtain ⟨T', hT', hyields⟩ := exists_yields I T
  have hrun := run_of_yields (c := ⟨I, []⟩) hyields
  refine ⟨T', hT', ?_, ?_⟩
  · rw [hrun]
    exact gathered_perm hT'
  · have hset : {G | G ∈ T ∧ Free I G} = {G | G ∈ T'.filter fun G => Free I G} := by
      ext G
      simp [hT'.mem_iff]
    rw [hrun, hset]
    refine h.parted_foldl_settle hT fun G hG => ?_
    obtain ⟨hmem, hfree⟩ := List.mem_filter.mp hG
    exact ⟨hT'.mem_iff.mp hmem, of_decide_eq_true hfree⟩

/-- Otherwise the group of the second kind would join one of two clusters that it meets. -/
theorem bridged (h : Steady I T D) (hT : ∀ G ∈ T, G.Nonempty) {A B C : Set α} (hB : B ∈ D)
    (hBfree : Free (gathered I T) B) (hA : A ∈ T) (hC : C ∈ T) (hAB : Meets A B)
    (hCB : Meets C B) : Meets A C := by
  have hstray {G : Set α} (hG : G ∈ T) (hGB : Meets G B) : Free I G := by
    rcases home_or_free I G with ⟨i, hhome⟩ | hfree
    · exact absurd (hGB.mono (hhome.subset_gathered hG) subset_rfl) (hBfree i)
    · exact hfree
  have hAfree := hstray hA hAB
  obtain ⟨T', hT', hold, hparted⟩ := h.exists_parted hT
  obtain ⟨N, hN, hAN⟩ := hparted.covered A ⟨hA, hAfree⟩
  obtain ⟨M, hM, hCM⟩ := hparted.covered C ⟨hC, hstray hC hCB⟩
  obtain ⟨rest, hrest⟩ := exists_append_perm (List.nodup_singleton B) (by simpa using hB)
  have hapart := h.apart T' ([B] ++ rest) hT' hrest
  rw [Clusters.run_append, Clusters.run_append] at hapart
  have hsettled : Apart (settle (Clusters.run ⟨I, []⟩ T').new B) := by
    have hrun := hapart.of_run
    rwa [Clusters.run, List.foldl_cons, List.foldl_nil,
      Clusters.join_of_free (by rw [hold]; exact hBfree)] at hrun
  obtain rfl : N = M := hsettled.eq_of_settle hN hM (hAB.mono hAN subset_rfl)
    (hCB.mono hCM subset_rfl)
  -- The groups that meet `A` fill its cluster, so one of them meets `C`.
  have hwhole : N ⊆ {x | ∃ H ∈ T, Free I H ∧ Meets H A ∧ x ∈ H} := by
    refine hparted.whole N hN _ ?_ ?_
    · rintro H ⟨hH, hHfree⟩ ⟨x, hxH, H', hH', hH'free, hH'A, hxH'⟩ y hy
      exact ⟨H, hH, hHfree, h.chained hT hH hH' hA hHfree hH'free hAfree
        (meets_of_mem hxH hxH') hH'A, hy⟩
    · obtain ⟨x, hx⟩ := hT A hA
      exact meets_of_mem (hAN hx) ⟨A, hA, hAfree, meets_self (hT A hA), hx⟩
  obtain ⟨x, hx⟩ := hT C hC
  obtain ⟨H, hH, hHfree, hHA, hxH⟩ := hwhole (hCM hx)
  exact h.chained hT hA hH hC hAfree hHfree (hstray hC hCB) hHA.symm (meets_of_mem hxH hx)

end Steady

/-! ## Orders in which a cluster draws groups to itself -/

/-- The groups that the old cluster may draw to itself, those at home in it included. -/
def Reached (I : ℕ → Set α) (T : List (Set α)) (i : ℕ) (G : Set α) : Prop :=
  (∀ j < i, ¬ Meets (I j) G) ∧ Meets (reach I T i) G

/-- The old cluster has drawn the groups done, and no other cluster has changed. -/
structure Drawing (I : ℕ → Set α) (T : List (Set α)) (i : ℕ) (done : Set (Set α))
    (c : Clusters α) : Prop where
  others : ∀ j, j ≠ i → c.old j = I j
  drawn : c.old i = I i ∪ {x | ∃ G ∈ done, x ∈ G}
  new : c.new = []

/-- As long as some are left, one of them meets the cluster. -/
theorem Drawing.exists_meets {done : Set (Set α)} (h : Drawing I T i done c)
    (hdone : ∀ G ∈ done, G ∈ T ∧ Reached I T i G) {rest : List (Set α)} (hrest : rest ≠ [])
    (hreached : ∀ G ∈ rest, Reached I T i G)
    (hall : ∀ G ∈ T, Reached I T i G → G ∈ done ∨ G ∈ rest) :
    ∃ G ∈ rest, Meets (c.old i) G := by
  by_contra hnone
  have hnone : ∀ G ∈ rest, ¬ Meets (c.old i) G := fun G hG hmeets => hnone ⟨G, hG, hmeets⟩
  have hwithin : c.old i ⊆ reach I T i := by
    rw [h.drawn]
    refine Set.union_subset (subset_reach I T i) ?_
    rintro x ⟨G, hG, hx⟩
    obtain ⟨hGT, hfirst, hmeets⟩ := hdone G hG
    exact reach_closed hGT hfirst hmeets hx
  have hclosed : reach I T i ⊆ c.old i := by
    intro x hx
    refine hx (c.old i) (h.drawn ▸ Set.subset_union_left) fun G hG hfirst hmeets => ?_
    rcases hall G hG ⟨hfirst, hmeets.mono hwithin subset_rfl⟩ with hG | hG
    · rw [h.drawn]
      exact fun y hy => .inr ⟨G, hG, hy⟩
    · exact absurd hmeets (hnone G hG)
  obtain ⟨G, hG⟩ := List.exists_mem_of_ne_nil rest hrest
  exact hnone G hG ((hreached G hG).2.mono hclosed subset_rfl)

theorem Drawing.join {done : Set (Set α)} (h : Drawing I T i done c) (hG : Reached I T i G)
    (hmeets : Meets (c.old i) G) : Drawing I T i (insert G done) (c.join G) := by
  have hhome : Home c.old G i := by
    refine ⟨hmeets, fun j hj => ?_⟩
    rw [h.others j hj.ne]
    exact hG.1 j hj
  rw [Clusters.join_of_home hhome]
  refine ⟨fun j hj => ?_, ?_, h.new⟩
  · rw [← h.others j hj]
    exact Function.update_of_ne hj _ _
  · have hgrown : grow c.old i G i = c.old i ∪ G := Function.update_self _ _ _
    refine hgrown.trans ?_
    rw [h.drawn, Set.union_assoc]
    refine congrArg _ (Set.ext fun x => ?_)
    simp [or_comm]

theorem Drawing.exists_order {done : Set (Set α)} (h : Drawing I T i done c)
    (hdone : ∀ G ∈ done, G ∈ T ∧ Reached I T i G) (rest : List (Set α))
    (hreached : ∀ G ∈ rest, G ∈ T ∧ Reached I T i G)
    (hall : ∀ G ∈ T, Reached I T i G → G ∈ done ∨ G ∈ rest) :
    ∃ order : List (Set α), order.Perm rest ∧
      Drawing I T i {G | G ∈ T ∧ Reached I T i G} (c.run order) := by
  induction hn : rest.length generalizing done rest c with
  | zero =>
    obtain rfl := List.length_eq_zero_iff.mp hn
    refine ⟨[], List.Perm.refl _, ?_⟩
    have hset : done = {G | G ∈ T ∧ Reached I T i G} := by
      ext G
      exact ⟨hdone G, fun ⟨hG, hr⟩ => (hall G hG hr).resolve_right List.not_mem_nil⟩
    exact hset ▸ h
  | succ n ih =>
    have hne : rest ≠ [] := List.ne_nil_of_length_pos (by omega)
    obtain ⟨G, hG, hmeets⟩ := h.exists_meets hdone hne (fun G hG => (hreached G hG).2) hall
    obtain ⟨before, after, rfl⟩ := List.append_of_mem hG
    have hperm : (before ++ G :: after).Perm (G :: (before ++ after)) := List.perm_middle
    obtain ⟨order, horder, hdrawing⟩ := ih (h.join (hreached G hG).2 hmeets)
      (fun H hH => hH.elim (fun heq => heq ▸ hreached G hG) (hdone H)) (before ++ after)
      (fun H hH => hreached H (hperm.mem_iff.mpr (List.mem_cons_of_mem G hH)))
      (fun H hH hr => by
        rcases hall H hH hr with hH | hH
        · exact .inl (Set.mem_insert_of_mem G hH)
        · rcases List.mem_cons.mp (hperm.mem_iff.mp hH) with rfl | hH
          · exact .inl (Set.mem_insert _ _)
          · exact .inr hH)
      (by rw [List.length_append] at *; simp only [List.length_cons] at hn; omega)
    exact ⟨G :: order, (horder.cons G).trans hperm.symm, hdrawing⟩

/-- An event that a cluster has drawn goes to no later one. -/
structure Claimed (I : ℕ → Set α) (i : ℕ) (x : α) (c : Clusters α) : Prop where
  here : x ∈ c.old i
  later : ∀ j, i < j → x ∈ c.old j → x ∈ I j
  new : ∀ N ∈ c.new, x ∉ N

theorem Claimed.run {x : α} (h : Claimed I i x c) : Claimed I i x (c.run gs) := by
  induction gs generalizing c with
  | nil => exact h
  | cons G gs ih =>
    refine ih ?_
    rcases home_or_free c.old G with ⟨k, hhome⟩ | hfree
    · rw [Clusters.join_of_home hhome]
      refine ⟨subset_grow _ _ _ _ h.here, fun j hj hx => ?_, h.new⟩
      refine h.later j hj (grow_subset (S := {y | y = x → x ∈ c.old j}) ?_ ?_ hx rfl)
      · exact fun y hy heq => heq ▸ hy
      · rintro rfl y hy rfl
        exact absurd (meets_of_mem h.here hy) (hhome.first i hj)
    · rw [Clusters.join_of_free hfree]
      refine ⟨h.here, h.later, fun N hN hx => ?_⟩
      rcases mem_settle ⟨N, hN, hx⟩ with ⟨M, hM, hx⟩ | hx
      · exact h.new M hM hx
      · exact hfree i (meets_of_mem h.here hx)

namespace Steady

/-- In the order in which a cluster draws all that it can, what it draws is nowhere else. -/
theorem drawn (h : Steady I T D) (hT : ∀ G ∈ T, G.Nonempty) (hD : Distinct D) (hG : G ∈ T)
    (hfirst : ∀ j ≤ i, ¬ Meets (I j) G) (hmeets : Meets (reach I T i) G) :
    (∃ j, Home I G j ∧ G ⊆ I j) ∧ G ⊆ expected I T D i := by
  classical
  have hreached : Reached I T i G := ⟨fun j hj => hfirst j hj.le, hmeets⟩
  have hstart : Drawing I T i ∅ ⟨I, []⟩ := ⟨fun _ _ => rfl, by simp, rfl⟩
  obtain ⟨order, horder, hdrawing⟩ := hstart.exists_order (fun _ h => h.elim)
    (T.filter fun G => Reached I T i G)
    (fun H hH => ⟨List.mem_of_mem_filter hH, by simpa using (List.mem_filter.mp hH).2⟩)
    (fun H hH hr => .inr (List.mem_filter.mpr ⟨hH, by simpa using hr⟩))
  have hperm : (order ++ T.filter fun G => !(decide (Reached I T i G))).Perm T :=
    (horder.append_right _).trans (List.filter_append_perm _ T)
  have hclaimed {x : α} (hx : x ∈ G) : Claimed I i x (Clusters.run ⟨I, []⟩
      ((order ++ T.filter fun G => !(decide (Reached I T i G))) ++ D)) := by
    rw [List.append_assoc, Clusters.run_append]
    refine Claimed.run ⟨?_, fun j hj hxj => ?_, fun N hN => ?_⟩
    · rw [hdrawing.drawn]
      exact .inr ⟨G, ⟨hG, hreached⟩, hx⟩
    · rwa [hdrawing.others j hj.ne'] at hxj
    · rw [hdrawing.new] at hN
      exact absurd hN List.not_mem_nil
  have hold := h.old_eq hD hperm (List.Perm.refl D)
  refine ⟨?_, fun x hx => hold ▸ (hclaimed hx).here⟩
  rcases home_or_free I G with ⟨j, hhome⟩ | hfree
  · have hlater : i < j := lt_of_not_ge fun hle => hfirst j hle hhome.meets
    refine ⟨j, hhome, fun x hx => (hclaimed hx).later j hlater ?_⟩
    rw [hold]
    exact subset_gathered _ D j (hhome.subset_gathered hG hx)
  · obtain ⟨T', hT', -, hparted⟩ := h.exists_parted hT
    obtain ⟨N, hN, hGN⟩ := hparted.covered G ⟨hG, hfree⟩
    obtain ⟨M, hM, hNM⟩ := Clusters.new_subset_run (Clusters.run ⟨I, []⟩ T') D hN
    rw [← Clusters.run_append] at hM
    have hM' := h.new T' _ D D hT' hperm (List.Perm.refl D) (List.Perm.refl D) M hM
    obtain ⟨x, hx⟩ := hT G hG
    exact absurd (hNM (hGN hx)) ((hclaimed hx).new M hM')

end Steady

/-- Greedy clustering of groups that hold something, with the groups of the second kind apart from
each other, does not depend on their order exactly if they are orderly. -/
theorem steady_iff_orderly (hT : ∀ G ∈ T, G.Nonempty) (hne : ∀ B ∈ D, B.Nonempty)
    (hD : Distinct D) : Steady I T D ↔ Orderly I T D := by
  constructor
  · intro h
    exact ⟨fun G hG i hfirst hmeets => h.drawn hT hD hG hfirst hmeets,
      fun A hA B hB C hC hAfree hBfree hCfree =>
        h.chained hT hA hB hC hAfree hBfree hCfree,
      fun B hB hBfree A hA C hC => h.bridged hT hB hBfree hA hC,
      fun G hG i => h.absorbed hD hG⟩
  · intro h
    exact h.steady hT hne hD

end Wardex.Lib
