import Wardex.Lib.Search
import Mathlib.Data.Finset.Card

/-! Depth-first search with a stack.  An item is marked when it is taken from the stack, so that it
may stand there several times; every entry of the stack carries what was picked up on the way. -/

namespace Wardex.Lib

variable {α β : Type*}

/-- The top of the stack comes first. -/
structure StackState (α β : Type*) where
  visited : List α
  stack : List (α × β)
  entered : List (α × β)

/-- The items that were entered. -/
def StackState.component (s : StackState α β) : List α := s.entered.map Prod.fst

/-- What an item offers to the stack, in the order in which it is put there. -/
structure Carrying (g : FiniteGraph α) (β : Type*) where
  offers : α → β → List (α × β)
  targets : ∀ x b, (offers x b).map Prod.fst = g.next x

namespace Carrying

variable {g : FiniteGraph α} (c : Carrying g β) [DecidableEq α]

/-- Enters `x`, which has been taken from the stack. -/
def enter (x : α) (b : β) (rest : List (α × β)) (s : StackState α β) : StackState α β where
  visited := s.visited ++ [x]
  stack := ((c.offers x b).filter fun e => e.1 ∉ s.visited ++ [x]).reverse ++ rest
  entered := s.entered ++ [(x, b)]

/-- What may still be entered. -/
def pending (s : StackState α β) : Finset α :=
  (g.bound ++ s.stack.map Prod.fst).toFinset \ s.visited.toFinset

variable {c} {s : StackState α β} {x y : α} {b : β} {rest : List (α × β)} {e : α × β}

theorem mem_pending :
    y ∈ pending (g := g) s ↔ (y ∈ g.bound ∨ y ∈ s.stack.map Prod.fst) ∧ y ∉ s.visited := by
  rw [pending, Finset.mem_sdiff, List.mem_toFinset, List.mem_toFinset, List.mem_append]

omit [DecidableEq α] in
theorem mem_next_of_offers (h : e ∈ c.offers x b) : e.1 ∈ g.next x :=
  c.targets x b ▸ List.mem_map_of_mem h

/-- What stands on the stack after `x` was entered: what was there, and what `x` offers. -/
theorem mem_stack_enter :
    e ∈ (c.enter x b rest s).stack ↔
      (e ∈ c.offers x b ∧ e.1 ∉ s.visited ++ [x]) ∨ e ∈ rest := by
  rw [enter, List.mem_append, List.mem_reverse, List.mem_filter, decide_eq_true_eq]

theorem pending_skip (hstack : s.stack = (x, b) :: rest) (hx : x ∈ s.visited) :
    pending (g := g) { s with stack := rest } = pending (g := g) s := by
  ext y
  rw [mem_pending, mem_pending, hstack]
  refine and_congr_left fun hy => or_congr_right ?_
  rw [List.map_cons, List.mem_cons]
  exact (or_iff_right fun heq : y = x => hy (heq ▸ hx)).symm

theorem card_pending_enter (hstack : s.stack = (x, b) :: rest) (hx : x ∉ s.visited) :
    (pending (g := g) (c.enter x b rest s)).card < (pending (g := g) s).card := by
  have hsub : pending (g := g) (c.enter x b rest s) ⊆ pending (g := g) s := by
    intro y hy
    obtain ⟨hwhere, hnew⟩ := mem_pending.mp hy
    refine mem_pending.mpr ⟨?_, fun hold => hnew (List.mem_append_left _ hold)⟩
    rcases hwhere with hbound | hstacked
    · exact .inl hbound
    · obtain ⟨e, he, rfl⟩ := List.mem_map.mp hstacked
      rcases mem_stack_enter.mp he with ⟨hoffer, -⟩ | hrest
      · exact .inl (g.next_mem x e.1 (mem_next_of_offers hoffer))
      · exact .inr (List.mem_map_of_mem (hstack ▸ List.mem_cons_of_mem _ hrest))
  refine Finset.card_lt_card ((Finset.ssubset_iff_of_subset hsub).mpr ⟨x, ?_, ?_⟩)
  · exact mem_pending.mpr ⟨.inr (List.mem_map.mpr ⟨(x, b), hstack ▸ List.mem_cons_self, rfl⟩), hx⟩
  · intro hmem
    exact (mem_pending.mp hmem).2 (List.mem_append_right _ (List.mem_singleton_self x))

variable (c) in
/-- `while let Some(entry) = stack.pop()`. -/
def dive (s : StackState α β) : StackState α β :=
  match _hstack : s.stack with
  | [] => s
  | (x, b) :: rest =>
    if _hx : x ∈ s.visited then dive { s with stack := rest } else dive (c.enter x b rest s)
termination_by ((pending (g := g) s).card, s.stack.length)
decreasing_by
  · rw [pending_skip _hstack _hx, _hstack]
    exact Prod.Lex.right _ (Nat.lt_succ_self _)
  · exact Prod.Lex.left _ _ (card_pending_enter _hstack _hx)

theorem dive_of_nil (h : s.stack = []) : c.dive s = s := by
  rw [dive]
  split
  · rfl
  · next hcons => simp [h] at hcons

theorem dive_skip (hstack : s.stack = (x, b) :: rest) (hx : x ∈ s.visited) :
    c.dive s = c.dive { s with stack := rest } := by
  rw [dive]
  split
  · next hnil => simp [hstack] at hnil
  · next y b' rest' hcons =>
    obtain ⟨heq, rfl⟩ := List.cons.inj (hstack.symm.trans hcons)
    obtain ⟨rfl, rfl⟩ := Prod.mk.inj heq
    exact dif_pos hx

theorem dive_enter (hstack : s.stack = (x, b) :: rest) (hx : x ∉ s.visited) :
    c.dive s = c.dive (c.enter x b rest s) := by
  rw [dive]
  split
  · next hnil => simp [hstack] at hnil
  · next y b' rest' hcons =>
    obtain ⟨heq, rfl⟩ := List.cons.inj (hstack.symm.trans hcons)
    obtain ⟨rfl, rfl⟩ := Prod.mk.inj heq
    exact dif_neg hx

/-- What the skipping and the entering of an item keep, the search keeps. -/
theorem dive_induction {P : StackState α β → Prop}
    (hskip : ∀ s x b rest, P s → s.stack = (x, b) :: rest → x ∈ s.visited →
      P { s with stack := rest })
    (henter : ∀ s x b rest, P s → s.stack = (x, b) :: rest → x ∉ s.visited →
      P (c.enter x b rest s)) (h : P s) : P (c.dive s) ∧ (c.dive s).stack = [] := by
  induction s using dive.induct c with
  | case1 s hstack =>
    rw [dive_of_nil hstack]
    exact ⟨h, hstack⟩
  | case2 s x b rest hstack hx ih =>
    rw [dive_skip hstack hx]
    exact ih (hskip s x b rest h hstack hx)
  | case3 s x b rest hstack hx ih =>
    rw [dive_enter hstack hx]
    exact ih (henter s x b rest h hstack hx)

/-! ### What is entered -/

/-- A search that has entered the items of its component, after others that left `earlier`. -/
structure Dives (g : FiniteGraph α) (earlier : List α) (root : α) (s : StackState α β) : Prop where
  visited : s.visited = earlier ++ s.component
  nodup : s.visited.Nodup
  root_mem : root ∈ s.component ∨ root ∈ s.stack.map Prod.fst
  entered : ∀ y ∈ s.component, g.Reaches root y
  stacked : ∀ e ∈ s.stack, g.Reaches root e.1
  closed : ∀ y ∈ s.component, ∀ z ∈ g.next y, z ∈ s.visited ∨ z ∈ s.stack.map Prod.fst

variable {earlier : List α} {root : α}

omit [DecidableEq α] in
theorem Dives.init (hnodup : earlier.Nodup) (b : β) :
    Dives g earlier root ⟨earlier, [(root, b)], []⟩ where
  visited := (List.append_nil earlier).symm
  nodup := hnodup
  root_mem := .inr (List.mem_singleton_self root)
  entered _ hy := absurd hy List.not_mem_nil
  stacked _ he := List.mem_singleton.mp he ▸ Relation.ReflTransGen.refl
  closed _ hy := absurd hy List.not_mem_nil

omit [DecidableEq α] in
theorem Dives.skip (h : Dives g earlier root s) (hroot : root ∉ earlier)
    (hstack : s.stack = (x, b) :: rest) (hx : x ∈ s.visited) :
    Dives g earlier root { s with stack := rest } where
  visited := h.visited
  nodup := h.nodup
  root_mem := by
    rcases h.root_mem with hentered | hstacked
    · exact .inl hentered
    · rw [hstack, List.map_cons, List.mem_cons] at hstacked
      rcases hstacked with rfl | hrest
      · rw [h.visited, List.mem_append] at hx
        exact .inl (hx.resolve_left hroot)
      · exact .inr hrest
  entered := h.entered
  stacked e he := h.stacked e (hstack ▸ List.mem_cons_of_mem _ he)
  closed y hy z hz := by
    rcases h.closed y hy z hz with hvisited | hstacked
    · exact .inl hvisited
    · rw [hstack, List.map_cons, List.mem_cons] at hstacked
      rcases hstacked with rfl | hrest
      · exact .inl hx
      · exact .inr hrest

theorem component_enter : (c.enter x b rest s).component = s.component ++ [x] := by
  rw [StackState.component, enter, List.map_append]
  rfl

theorem Dives.enter (h : Dives g earlier root s) (hstack : s.stack = (x, b) :: rest)
    (hx : x ∉ s.visited) : Dives g earlier root (c.enter x b rest s) := by
  have hreached : g.Reaches root x := h.stacked (x, b) (hstack ▸ List.mem_cons_self)
  constructor
  · rw [component_enter, ← List.append_assoc, ← h.visited]
    rfl
  · have hnodup := h.nodup.concat hx
    rw [List.concat_eq_append] at hnodup
    exact hnodup
  · rw [component_enter, List.mem_append, List.mem_singleton]
    rcases h.root_mem with hentered | hstacked
    · exact .inl (.inl hentered)
    · rw [hstack, List.map_cons, List.mem_cons] at hstacked
      rcases hstacked with hroot | hrest
      · exact .inl (.inr hroot)
      · obtain ⟨e, he, rfl⟩ := List.mem_map.mp hrest
        exact .inr (List.mem_map_of_mem (mem_stack_enter.mpr (.inr he)))
  · intro y hy
    rw [component_enter, List.mem_append, List.mem_singleton] at hy
    rcases hy with hold | rfl
    · exact h.entered y hold
    · exact hreached
  · intro e he
    rcases mem_stack_enter.mp he with ⟨hoffer, -⟩ | hrest
    · exact hreached.tail (mem_next_of_offers hoffer)
    · exact h.stacked e (hstack ▸ List.mem_cons_of_mem _ hrest)
  · intro y hy z hz
    rw [component_enter, List.mem_append, List.mem_singleton] at hy
    by_cases hmarked : z ∈ s.visited ++ [x]
    · exact .inl hmarked
    refine .inr ?_
    rcases hy with hold | rfl
    · -- what an earlier item offered is still on the stack, below `x`
      have hstacked := (h.closed y hold z hz).resolve_left
        fun hvisited => hmarked (List.mem_append_left _ hvisited)
      rw [hstack, List.map_cons, List.mem_cons] at hstacked
      rcases hstacked with rfl | hrest
      · exact absurd (List.mem_append_right _ (List.mem_singleton_self z)) hmarked
      · obtain ⟨e, he, rfl⟩ := List.mem_map.mp hrest
        exact List.mem_map_of_mem (mem_stack_enter.mpr (.inr he))
    · rw [← c.targets y b] at hz
      obtain ⟨e, he, rfl⟩ := List.mem_map.mp hz
      exact List.mem_map_of_mem (mem_stack_enter.mpr (.inl ⟨he, hmarked⟩))

omit [DecidableEq α] in
/-- A finished search explores what its root reaches. -/
theorem Dives.explores (h : Dives g earlier root s) (hstack : s.stack = []) :
    FiniteGraph.Explores g earlier root (⟨s.visited, [], ()⟩ : SearchState α Unit)
      s.component where
  visited := by rw [h.visited, List.append_nil]
  nodup := h.nodup
  root_mem := by
    rw [List.append_nil]
    exact h.root_mem.resolve_right (by rw [hstack]; exact List.not_mem_nil)
  reached y hy := h.entered y (List.append_nil s.component ▸ hy)
  closed y hy z hz :=
    (h.closed y hy z hz).resolve_right (by rw [hstack]; exact List.not_mem_nil)

theorem dives_dive (hnodup : earlier.Nodup) (hroot : root ∉ earlier) (b : β) :
    Dives g earlier root (c.dive ⟨earlier, [(root, b)], []⟩) ∧
      (c.dive ⟨earlier, [(root, b)], []⟩).stack = [] :=
  dive_induction (fun _ _ _ _ h hstack hx => h.skip hroot hstack hx)
    (fun _ _ _ _ h hstack hx => h.enter hstack hx) (.init hnodup b)

/-! ### Entries -/

/-- What was entered stays entered. -/
theorem entered_subset_dive (s : StackState α β) : s.entered ⊆ (c.dive s).entered := by
  refine (dive_induction (P := fun t => s.entered ⊆ t.entered) ?_ ?_ (List.Subset.refl _)).1
  · exact fun _ _ _ _ h _ _ => h
  · exact fun _ _ _ _ h _ _ _ he => List.mem_append_left _ (h he)

/-- Only what is offered matters. -/
theorem dive_congr {g' : FiniteGraph α} {c' : Carrying g' β}
    (h : ∀ x b, c.offers x b = c'.offers x b) (s : StackState α β) : c.dive s = c'.dive s := by
  induction s using dive.induct c with
  | case1 s hstack => rw [dive_of_nil hstack, dive_of_nil hstack]
  | case2 s x b rest hstack hx ih => rw [dive_skip hstack hx, dive_skip hstack hx, ih]
  | case3 s x b rest hstack hx ih =>
    have hsame : c.enter x b rest s = c'.enter x b rest s := by rw [enter, enter, h]
    rw [dive_enter hstack hx, dive_enter hstack hx, ih, hsame]

variable (rest) in
/-- The last offer is on top of the stack, unless its item is marked. -/
theorem stack_enter_concat {l : List (α × β)} (hoffers : c.offers x b = l ++ [e])
    (he : e.1 ∉ s.visited ++ [x]) : ∃ rest', (c.enter x b rest s).stack = e :: rest' := by
  refine ⟨(l.filter fun e => e.1 ∉ s.visited ++ [x]).reverse ++ rest, ?_⟩
  rw [enter, hoffers, List.filter_append,
    List.filter_cons_of_pos (by rw [decide_eq_true_eq]; exact he), List.reverse_append]
  rfl

/-! ### Components -/

variable (c) in
/-- Searches from an item that no search before has entered. -/
def sweep (start : β) (s : List α × List (List α)) (x : α) : List α × List (List α) :=
  if x ∈ s.1 then s
  else
    let found := c.dive ⟨s.1, [(x, start)], []⟩
    (found.visited, s.2 ++ [found.component])

theorem swept_foldl (start : β) (items : List α) :
    g.Swept items (items.foldl (c.sweep start) ([], [])) := by
  induction items using List.reverseRecOn with
  | nil => exact FiniteGraph.swept_nil g
  | append_singleton items x ih =>
    rw [List.foldl_append, List.foldl_cons, List.foldl_nil, sweep]
    split_ifs with hx
    · exact ih.skip hx
    · obtain ⟨hdives, hstack⟩ := dives_dive (c := c) ih.nodup hx start
      exact ih.explored hx (hdives.explores hstack) rfl

end Carrying

end Wardex.Lib
