import Mathlib.Data.List.SplitBy

/-! Lists cut into pieces, before each element that is not near to the one before it and where a
piece has its full size.  The pieces are the shares of the bursts, where all neighbours are near. -/

namespace Wardex.Lib

variable {α : Type*} {near : α → α → Bool} {most : ℕ} {l m piece : List α} {a x y : α} {i k : ℕ}

/-! ### Shares of a list -/

/-- A share of a list: `most` elements from a multiple of `most` on, or what is left from there. -/
def share (most : ℕ) (l : List α) (k : ℕ) : List α := (l.drop (k * most)).take most

def IsShare (most : ℕ) (l piece : List α) : Prop :=
  ∃ k, k * most < l.length ∧ piece = share most l k

theorem getElem?_share : (share most l k)[i]? = if i < most then l[k * most + i]? else none := by
  rw [share, List.getElem?_take, List.getElem?_drop]

theorem mem_share (hmost : 0 < most) : a ∈ share most l k ↔ ∃ n, l[n]? = some a ∧ n / most = k := by
  rw [List.mem_iff_getElem?]
  constructor
  · rintro ⟨i, hi⟩
    rw [getElem?_share] at hi
    split_ifs at hi with hlt
    refine ⟨k * most + i, hi, ?_⟩
    rw [Nat.mul_comm, Nat.mul_add_div hmost, Nat.div_eq_of_lt hlt, Nat.add_zero]
  · rintro ⟨n, hn, rfl⟩
    refine ⟨n % most, ?_⟩
    rw [getElem?_share, if_pos (Nat.mod_lt n hmost), Nat.mul_comm, Nat.div_add_mod]
    exact hn

theorem length_share : (share most l k).length = min most (l.length - k * most) := by
  rw [share, List.length_take, List.length_drop]

theorem length_share_eq_iff (hmost : 0 < most) :
    (share most l k).length = most ↔ (k + 1) * most ≤ l.length := by
  rw [length_share, Nat.add_mul, Nat.one_mul]
  omega

/-- Neighbours in a share are those neighbours in the list of which the second starts no share. -/
theorem isChain_shares_iff {R : α → α → Prop} (hmost : 0 < most) :
    (∀ piece, IsShare most l piece → piece.IsChain R) ↔
      ∀ i x y, l[i]? = some x → l[i + 1]? = some y → (i + 1) % most ≠ 0 → R x y := by
  constructor
  · intro h i x y hx hy hi
    have hlt := (List.getElem?_eq_some_iff.mp hx).1
    have hstart : i / most * most < l.length :=
      Nat.lt_of_le_of_lt (Nat.div_mul_le_self i most) hlt
    have hin : i % most + 1 < most := by
      have hle : i % most + 1 ≤ most := Nat.mod_lt i hmost
      refine Nat.lt_of_le_of_ne hle fun heq => hi ?_
      have hplace : i + 1 = most * (i / most + 1) := by
        rw [Nat.mul_add, Nat.mul_one, ← heq, ← Nat.add_assoc, heq, Nat.div_add_mod]
      exact Nat.mod_eq_zero_of_dvd ⟨_, hplace⟩
    have hchain := List.isChain_iff_getElem.mp (h _ ⟨_, hstart, rfl⟩)
    have hplace : i / most * most + i % most = i := Nat.div_add_mod' i most
    have hx' : (share most l (i / most))[i % most]? = some x := by
      rw [getElem?_share, if_pos (by omega), hplace, hx]
    have hy' : (share most l (i / most))[i % most + 1]? = some y := by
      rw [getElem?_share, if_pos hin, ← Nat.add_assoc, hplace, hy]
    obtain ⟨-, rfl⟩ := List.getElem?_eq_some_iff.mp hx'
    obtain ⟨hlength, rfl⟩ := List.getElem?_eq_some_iff.mp hy'
    exact hchain _ hlength
  · rintro h piece ⟨k, -, rfl⟩
    refine List.isChain_iff_getElem.mpr fun i hi => ?_
    have hx := List.getElem?_eq_getElem (Nat.lt_of_succ_lt hi)
    have hy := List.getElem?_eq_getElem hi
    rw [getElem?_share] at hx hy
    split_ifs at hx hy with hin hin'
    refine h (k * most + i) _ _ hx hy ?_
    rw [Nat.add_assoc, Nat.mul_add_mod_self_right, Nat.mod_eq_of_lt hin']
    exact Nat.succ_ne_zero i

theorem isShare_of_length_le (hl : l ≠ []) (hle : l.length ≤ most) :
    IsShare most l piece ↔ piece = l := by
  have hpos : 0 < l.length := List.length_pos_iff.mpr hl
  have hwhole : share most l 0 = l := by
    rw [share, Nat.zero_mul, List.drop_zero, List.take_of_length_le hle]
  constructor
  · rintro ⟨k, hk, rfl⟩
    have hzero : k = 0 := by
      by_contra hne
      have hmul : most ≤ k * most := Nat.le_mul_of_pos_left most (Nat.pos_of_ne_zero hne)
      omega
    rw [hzero, hwhole]
  · rintro rfl
    exact ⟨0, by omega, hwhole.symm⟩

/-- A full piece in front of a list is its first share. -/
theorem isShare_append (hl : l.length = most) (hmost : 0 < most) :
    IsShare most (l ++ m) piece ↔ piece = l ∨ IsShare most m piece := by
  have hfirst : share most (l ++ m) 0 = l := by
    rw [share, Nat.zero_mul, List.drop_zero, ← hl, List.take_left]
  have hnext (k : ℕ) : share most (l ++ m) (k + 1) = share most m k := by
    rw [share, share, Nat.add_mul, Nat.one_mul, Nat.add_comm, ← List.drop_drop, ← hl,
      List.drop_left]
  constructor
  · rintro ⟨k, hk, rfl⟩
    cases k with
    | zero => exact .inl hfirst
    | succ k =>
      refine .inr ⟨k, ?_, hnext k⟩
      rw [List.length_append, hl, Nat.add_mul, Nat.one_mul] at hk
      omega
  · rintro (rfl | ⟨k, hk, rfl⟩)
    · refine ⟨0, ?_, hfirst.symm⟩
      rw [List.length_append]
      omega
    · refine ⟨k + 1, ?_, (hnext k).symm⟩
      rw [List.length_append, hl, Nat.add_mul, Nat.one_mul]
      omega

/-! ### Bursts -/

/-- Two bursts of an ordered list of which one follows the other are parted by elements between
them that are not near. -/
theorem exists_far_of_bursts {R : α → α → Prop} [Std.Refl R] (hl : l.Pairwise R)
    {before after : List (List α)} {burst : List α}
    (hsplit : l.splitBy near = before ++ burst :: after) (hx : x ∈ burst)
    (hy : y ∈ after.flatten) :
    ∃ e ∈ l, ∃ f ∈ l, R x e ∧ R e f ∧ R f y ∧ near e f = false := by
  have hflat := List.flatten_splitBy near l
  have hchain := List.isChain_getLast_head_splitBy near l
  rw [hsplit, List.isChain_append] at hchain
  cases after with
  | nil => cases hy
  | cons next after =>
    have hboundary := List.isChain_cons_cons.mp hchain.2.1
    obtain ⟨⟨hne, hne', hfar⟩, -⟩ := hboundary
    rw [hsplit, List.flatten_append, List.flatten_cons] at hflat
    rw [← hflat, List.pairwise_append, List.pairwise_append] at hl
    obtain ⟨-, ⟨hin, hafter, hacross⟩, -⟩ := hl
    have hf : next.head hne' ∈ (next :: after).flatten :=
      List.mem_flatten.mpr ⟨next, List.mem_cons_self, List.head_mem hne'⟩
    have hhead : (next :: after).flatten.head (List.ne_nil_of_mem hf) = next.head hne' := by
      simp only [List.flatten_cons, List.head_append_of_ne_nil hne']
    have hlast := hin.rel_getLast hx
    have hfirst := hafter.rel_head hy
    rw [hhead] at hfirst
    refine ⟨_, ?_, _, ?_, hlast, hacross _ (List.getLast_mem hne) _ hf, hfirst, hfar⟩
    · rw [← hflat]
      exact List.mem_append_right _ (List.mem_append_left _ (List.getLast_mem hne))
    · rw [← hflat]
      exact List.mem_append_right _ (List.mem_append_right _ hf)

/-- In an ordered list, a burst holds everything from which its elements are parted by near
neighbours only. -/
theorem mem_burst {R : α → α → Prop} [Std.Refl R] (hl : l.Pairwise R) {burst : List α}
    (hburst : burst ∈ l.splitBy near) (hx : x ∈ burst) (hy : y ∈ l)
    (hnear : ∀ e ∈ l, ∀ f ∈ l, R e f → R x e ∧ R f y ∨ R y e ∧ R f x → near e f = true) :
    y ∈ burst := by
  obtain ⟨before, after, hsplit⟩ := List.append_of_mem hburst
  have hflat := List.flatten_splitBy near l
  rw [hsplit, List.flatten_append, List.flatten_cons] at hflat
  rw [← hflat, List.mem_append, List.mem_append] at hy
  obtain hy | hy | hy := hy
  · obtain ⟨burst', hburst', hy'⟩ := List.mem_flatten.mp hy
    obtain ⟨before', between, rfl⟩ := List.append_of_mem hburst'
    rw [List.append_assoc, List.cons_append] at hsplit
    have hbehind : x ∈ (between ++ burst :: after).flatten :=
      List.mem_flatten.mpr ⟨burst, List.mem_append_right _ List.mem_cons_self, hx⟩
    obtain ⟨e, he, f, hf, hye, hef, hfx, hfar⟩ := exists_far_of_bursts hl hsplit hy' hbehind
    exact absurd (hnear e he f hf hef (.inr ⟨hye, hfx⟩)) (Bool.eq_false_iff.mp hfar)
  · exact hy
  · obtain ⟨e, he, f, hf, hxe, hef, hfy, hfar⟩ := exists_far_of_bursts hl hsplit hx hy
    exact absurd (hnear e he f hf hef (.inl ⟨hxe, hfy⟩)) (Bool.eq_false_iff.mp hfar)

/-! ### Cutting -/

variable (near most) in
/-- Whether the open piece is closed before the next element. -/
def closes (piece : List α) (a : α) : Bool :=
  match piece.getLast? with
  | some last => !near last a || most ≤ piece.length
  | none => false

variable (near most) in
def cutFrom : List α → List α → List (List α)
  | piece, [] => if piece.isEmpty then [] else [piece]
  | piece, a :: l =>
    if closes near most piece a then piece :: cutFrom [a] l else cutFrom (piece ++ [a]) l

variable (near most) in
def cut (l : List α) : List (List α) := cutFrom near most [] l

theorem flatten_cutFrom (piece l : List α) : (cutFrom near most piece l).flatten = piece ++ l := by
  induction l generalizing piece with
  | nil =>
    rw [cutFrom]
    split_ifs with hempty
    · rw [List.isEmpty_iff.mp hempty]
      rfl
    · rw [List.flatten_singleton, List.append_nil]
  | cons a l ih =>
    rw [cutFrom]
    split_ifs
    · rw [List.flatten_cons, ih]
      rfl
    · rw [ih, List.append_assoc]
      rfl

theorem flatten_cut (l : List α) : (cut near most l).flatten = l := flatten_cutFrom [] l

/-- A burst goes on in front of a list if the first element of the list is near to its last. -/
theorem splitBy_append_near {last : α} (hl : l.IsChain fun x y => near x y)
    (hlast : l.getLast? = some last) (hnear : near last a = true) :
    ∃ burst rest, (a :: m).splitBy near = burst :: rest ∧
      (l ++ a :: m).splitBy near = (l ++ burst) :: rest := by
  have hne : (a :: m).splitBy near ≠ [] := List.splitBy_ne_nil.mpr (List.cons_ne_nil a m)
  obtain ⟨burst, rest, hsplit⟩ := List.exists_cons_of_ne_nil hne
  refine ⟨burst, rest, hsplit, ?_⟩
  obtain ⟨hflat, hnil, hchains, hapart⟩ := List.splitBy_eq_iff.mp hsplit
  have hburst : burst ≠ [] := fun hempty => hnil (hempty ▸ List.mem_cons_self)
  obtain ⟨b, burst, rfl⟩ := List.exists_cons_of_ne_nil hburst
  obtain ⟨rfl, -⟩ := List.cons.inj hflat
  refine List.splitBy_eq_iff.mpr ⟨?_, ?_, ?_, ?_⟩
  · rw [hflat, List.flatten_cons, List.flatten_cons, List.append_assoc]
  · rw [List.mem_cons, not_or]
    exact ⟨(List.append_ne_nil_of_right_ne_nil l hburst).symm,
      fun hmem => hnil (List.mem_cons_of_mem _ hmem)⟩
  · intro piece hpiece
    obtain rfl | hmem := List.mem_cons.mp hpiece
    · refine List.isChain_append.mpr ⟨hl, hchains _ List.mem_cons_self, fun x hx y hy => ?_⟩
      obtain rfl := Option.some.inj (hlast.symm.trans hx)
      obtain rfl := Option.some.inj hy
      exact hnear
    · exact hchains piece (List.mem_cons_of_mem _ hmem)
  · refine List.isChain_cons.mpr ⟨fun next hnext => ?_, hapart.tail⟩
    obtain ⟨_, hhead, hfar⟩ := (List.isChain_cons.mp hapart).1 next hnext
    refine ⟨List.append_ne_nil_of_right_ne_nil l hburst, hhead, ?_⟩
    rw [List.getLast_append_of_ne_nil _ hburst]
    exact hfar

theorem closes_iff {last : α} (hlast : l.getLast? = some last) :
    closes near most l a = true ↔ near last a = false ∨ most ≤ l.length := by
  rw [closes, hlast]
  dsimp only
  rw [Bool.or_eq_true, Bool.not_eq_true', decide_eq_true_eq]

theorem isChain_concat_near {last : α} (hl : l.IsChain fun x y => near x y)
    (hlast : l.getLast? = some last) (hnear : near last a = true) :
    (l ++ [a]).IsChain fun x y => near x y := by
  refine List.isChain_append.mpr ⟨hl, List.isChain_singleton a, fun x hx y hy => ?_⟩
  obtain rfl := Option.some.inj (hlast.symm.trans hx)
  obtain rfl := Option.some.inj hy
  exact hnear

theorem mem_cutFrom (hmost : 0 < most) {window : List α} (hwindow : window ≠ [])
    (hchain : window.IsChain fun x y => near x y) (hle : window.length ≤ most) (l : List α) :
    piece ∈ cutFrom near most window l ↔
      ∃ burst ∈ (window ++ l).splitBy near, IsShare most burst piece := by
  induction l generalizing window with
  | nil =>
    rw [cutFrom, if_neg (by rwa [List.isEmpty_iff]), List.append_nil,
      List.splitBy_of_isChain hwindow hchain]
    simp only [List.mem_singleton, exists_eq_left, isShare_of_length_le hwindow hle]
  | cons a l ih =>
    have hlast := List.getLast?_eq_some_getLast hwindow
    have hnext := ih (List.cons_ne_nil a []) (List.isChain_singleton a) hmost
    rw [List.singleton_append] at hnext
    rw [cutFrom]
    by_cases hnear : near (window.getLast hwindow) a = true
    · obtain ⟨burst, rest, hsplit, hwhole⟩ := splitBy_append_near (m := l) hchain hlast hnear
      split_ifs with hclose
      · -- The window is full: it is the first share of its burst.
        have hfull : window.length = most := by
          refine Nat.le_antisymm hle (((closes_iff hlast).mp hclose).resolve_left ?_)
          rw [hnear]
          exact Bool.true_eq_false.mp
        rw [List.mem_cons, hnext, hwhole, hsplit]
        simp only [List.exists_mem_cons_iff, isShare_append hfull hmost]
        exact or_assoc.symm
      · have hroom : ¬ most ≤ window.length := fun h => hclose ((closes_iff hlast).mpr (.inr h))
        have hchain' := isChain_concat_near hchain hlast hnear
        rw [ih (List.append_ne_nil_of_left_ne_nil hwindow _) hchain' ?_, List.append_assoc,
          List.singleton_append]
        rw [List.length_append, List.length_singleton]
        exact Nat.lt_of_not_le hroom
    · have hfar : near (window.getLast hwindow) a = false := Bool.eq_false_iff.mpr hnear
      have hapart : ∀ x ∈ window.getLast?, near x a = false := by
        intro x hx
        obtain rfl := Option.some.inj (hlast.symm.trans hx)
        exact hfar
      rw [if_pos ((closes_iff hlast).mpr (.inl hfar)), List.mem_cons, hnext,
        List.splitBy_append_cons l hapart, List.splitBy_of_isChain hwindow hchain,
        List.singleton_append]
      simp only [List.exists_mem_cons_iff, isShare_of_length_le hwindow hle]

/-- The pieces are the shares of the bursts. -/
theorem mem_cut (hmost : 0 < most) (l : List α) :
    piece ∈ cut near most l ↔ ∃ burst ∈ l.splitBy near, IsShare most burst piece := by
  cases l with
  | nil =>
    refine iff_of_false List.not_mem_nil ?_
    rintro ⟨burst, hburst, -⟩
    exact List.not_mem_nil hburst
  | cons a l => exact mem_cutFrom hmost (List.cons_ne_nil a []) (List.isChain_singleton a) hmost l

/-- One more element goes into the last burst where it is near, and else into one of its own. -/
theorem splitBy_concat {bursts : List (List α)} {current : List α} {last : α}
    (h : l.splitBy near = bursts ++ [current]) (hlast : l.getLast? = some last) (a : α) :
    (l ++ [a]).splitBy near =
      if near last a then bursts ++ [current ++ [a]] else bursts ++ [current] ++ [[a]] := by
  split_ifs with hnear
  · obtain ⟨hflat, hnil, hchains, hapart⟩ := List.splitBy_eq_iff.mp h
    have hcurrent : current ≠ [] := fun hempty =>
      hnil (List.mem_append_right _ (hempty ▸ List.mem_singleton_self _))
    have hend : current.getLast? = some last := by
      rw [hflat, List.flatten_append, List.flatten_singleton,
        List.getLast?_append_of_ne_nil _ hcurrent] at hlast
      exact hlast
    refine List.splitBy_eq_iff.mpr ⟨?_, ?_, ?_, ?_⟩
    · rw [hflat, List.flatten_append, List.flatten_append, List.flatten_singleton,
        List.flatten_singleton, List.append_assoc]
    · intro hmem
      rcases List.mem_append.mp hmem with hmem | hmem
      · exact hnil (List.mem_append_left _ hmem)
      · exact List.append_ne_nil_of_left_ne_nil hcurrent _ (List.mem_singleton.mp hmem).symm
    · intro burst hburst
      rcases List.mem_append.mp hburst with hmem | hmem
      · exact hchains burst (List.mem_append_left _ hmem)
      · obtain rfl := List.mem_singleton.mp hmem
        exact isChain_concat_near (hchains current (by simp)) hend hnear
    · obtain ⟨hbursts, -, hjoint⟩ := List.isChain_append.mp hapart
      refine List.isChain_append.mpr ⟨hbursts, List.isChain_singleton _, ?_⟩
      intro x hx y hy
      obtain rfl := Option.some.inj hy
      obtain ⟨hne, hne', hfar⟩ := hjoint x hx current rfl
      refine ⟨hne, List.append_ne_nil_of_left_ne_nil hcurrent _, ?_⟩
      rw [List.head_append_of_ne_nil hcurrent]
      exact hfar
  · have hfar : ∀ x ∈ l.getLast?, near x a = false := by
      intro x hx
      obtain rfl := Option.some.inj (hlast.symm.trans hx)
      exact Bool.eq_false_iff.mpr hnear
    rw [List.splitBy_append_cons [] hfar, h, List.splitBy_of_isChain (List.cons_ne_nil a [])
      (List.isChain_singleton a)]

theorem splitBy_map {β : Type*} (near : α → α → Bool) (f : β → α) (l : List β) :
    (l.map f).splitBy near =
      (l.splitBy fun x y => near (f x) (f y)).map (List.map f) := by
  have hflat := List.flatten_splitBy (fun x y => near (f x) (f y)) l
  refine List.splitBy_eq_iff.mpr ⟨?_, ?_, ?_, ?_⟩
  · rw [← List.map_flatten, hflat]
  · intro hmem
    obtain ⟨burst, hburst, hempty⟩ := List.mem_map.mp hmem
    exact List.ne_nil_of_mem_splitBy hburst (List.map_eq_nil_iff.mp hempty)
  · intro burst hburst
    obtain ⟨burst, hmem, rfl⟩ := List.mem_map.mp hburst
    exact List.isChain_map_of_isChain f (fun _ _ h => h) (List.isChain_of_mem_splitBy hmem)
  · refine List.isChain_map_of_isChain (List.map f) ?_ (List.isChain_getLast_head_splitBy _ l)
    rintro burst next ⟨hburst, hnext, hfar⟩
    refine ⟨mt List.map_eq_nil_iff.mp hburst, mt List.map_eq_nil_iff.mp hnext, ?_⟩
    rwa [List.getLast_map, List.head_map]

end Wardex.Lib
