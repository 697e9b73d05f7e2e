import Mathlib.Data.List.Induction
import Mathlib.Data.List.Nodup
import Mathlib.Logic.Relation
import Wardex.Lib.Visits

/-! Breadth-first search in a graph whose links lead to finitely many items.  The search takes an
action when it enters an item of the queue, and one when it discovers an item. -/

namespace Wardex.Lib

/-- All links lead to items of `bound`. -/
structure FiniteGraph (α : Type*) where
  next : α → List α
  bound : List α
  next_mem : ∀ x, ∀ y ∈ next x, y ∈ bound

@[ext] structure SearchState (α σ : Type*) where
  visited : List α
  queue : List α
  acc : σ

structure SearchActions (α σ : Type*) where
  enter : α → σ → σ
  discover : α → α → σ → σ

def listing {α : Type*} : SearchActions α (List α) where
  enter x entered := entered ++ [x]
  discover _ _ entered := entered

namespace FiniteGraph

variable {α σ : Type*} (g : FiniteGraph α)

def Link (x y : α) : Prop := y ∈ g.next x

def Reaches : α → α → Prop := Relation.ReflTransGen g.Link

/-- There is a path of links, some of which are taken backwards. -/
def Connected : α → α → Prop := Relation.EqvGen g.Link

/-- No link leaves the items. -/
def Closed (items : List α) : Prop := ∀ x ∈ items, ∀ y ∈ g.next x, y ∈ items

/-- A component, found by the search from the first item that the `earlier` ones leave. -/
def FoundAfter (items : List α) (earlier component : List α) : Prop :=
  g.Closed earlier ∧ ∃ skipped x rest, items = skipped ++ x :: rest ∧ skipped ⊆ earlier ∧
    x ∉ earlier ∧ ∀ y, y ∈ component ↔ g.Reaches x y ∧ y ∉ earlier

/-- A sweep of `items` that has visited what the components contain. -/
structure Swept (items : List α) (s : List α × List (List α)) : Prop where
  flatten : s.2.flatten = s.1
  nodup : s.1.Nodup
  closed : g.Closed s.1
  subset : items ⊆ s.1
  found : ∀ as c bs, s.2 = as ++ c :: bs → g.FoundAfter items as.flatten c

section

variable {g} {s : SearchState α σ} {items earlier component : List α} {root x y : α}

theorem Closed.mem_of_reaches (h : g.Closed items) (hpath : g.Reaches x y) (hx : x ∈ items) :
    y ∈ items := by
  induction hpath with
  | refl => exact hx
  | tail _ hlink ih => exact h _ ih _ hlink

theorem Reaches.connected (h : g.Reaches x y) : g.Connected x y := by
  induction h with
  | refl => exact .refl x
  | tail _ hlink ih => exact ih.trans _ _ _ (.rel _ _ hlink)

theorem reaches_symm (hback : ∀ x y, g.Link x y → g.Reaches y x) (h : g.Reaches x y) :
    g.Reaches y x := by
  induction h with
  | refl => exact .refl
  | tail _ hlink ih => exact (hback _ _ hlink).trans ih

theorem connected_iff_reaches (hback : ∀ x y, g.Link x y → g.Reaches y x) :
    g.Connected x y ↔ g.Reaches x y := by
  refine ⟨fun h => ?_, Reaches.connected⟩
  induction h with
  | rel x y hlink => exact .single hlink
  | refl x => exact .refl
  | symm x y _ ih => exact reaches_symm hback ih
  | trans x y z _ _ ih ih' => exact ih.trans ih'

theorem FoundAfter.snoc (h : g.FoundAfter items earlier component) :
    g.FoundAfter (items ++ [x]) earlier component := by
  obtain ⟨hclosed, skipped, z, rest, rfl, hfound⟩ := h
  exact ⟨hclosed, skipped, z, rest ++ [x], by simp, hfound⟩

theorem FoundAfter.ne_nil (h : g.FoundAfter items earlier component) : component ≠ [] := by
  obtain ⟨-, -, root, -, -, -, hroot, hmem⟩ := h
  exact List.ne_nil_of_mem ((hmem root).mpr ⟨.refl, hroot⟩)

theorem Swept.exists_found {t : List α × List (List α)} (h : g.Swept items t)
    (hcomponent : component ∈ t.2) : ∃ earlier, g.FoundAfter items earlier component := by
  obtain ⟨as, bs, hsplit⟩ := List.append_of_mem hcomponent
  exact ⟨as.flatten, h.found as component bs hsplit⟩

/-- Whatever item a sweep begins with, its first component is what that item reaches. -/
theorem Swept.exists_head {t : List α × List (List α)} (h : g.Swept (x :: items) t) :
    ∃ c ∈ t.2, ∀ y, y ∈ c ↔ g.Reaches x y := by
  cases hcomponents : t.2 with
  | nil =>
    have hx := h.subset List.mem_cons_self
    rw [← h.flatten, hcomponents] at hx
    exact absurd hx List.not_mem_nil
  | cons c cs =>
    obtain ⟨-, skipped, root, rest, hitems, hskipped, -, hmem⟩ := h.found [] c cs hcomponents
    obtain rfl := List.subset_nil.mp hskipped
    obtain ⟨rfl, -⟩ := List.cons.inj hitems
    exact ⟨c, List.mem_cons_self, fun y => by simpa using hmem y⟩

/-- If the target of each link reaches its source, what is found is a connected component. -/
theorem FoundAfter.mem_iff_connected (hback : ∀ x y, g.Link x y → g.Reaches y x)
    (h : g.FoundAfter items earlier component) (hx : x ∈ component) :
    y ∈ component ↔ g.Connected x y := by
  obtain ⟨hclosed, -, root, -, -, -, hroot, hmem⟩ := h
  have hall : ∀ z, z ∈ component ↔ g.Reaches root z := fun z =>
    (hmem z).trans ⟨And.left, fun hpath =>
      ⟨hpath, fun hz => hroot (hclosed.mem_of_reaches (reaches_symm hback hpath) hz)⟩⟩
  have hrootx := (hall x).mp hx
  rw [connected_iff_reaches hback, hall]
  exact ⟨fun hy => (reaches_symm hback hrootx).trans hy, fun hy => hrootx.trans hy⟩

/-- A search that has entered the items `component`, after others that left `earlier`. -/
structure Explores (g : FiniteGraph α) (earlier : List α) (root : α) (s : SearchState α σ)
    (component : List α) : Prop where
  visited : s.visited = earlier ++ (component ++ s.queue)
  nodup : s.visited.Nodup
  root_mem : root ∈ component ++ s.queue
  reached : ∀ y ∈ component ++ s.queue, g.Reaches root y
  closed : ∀ x ∈ component, ∀ y ∈ g.next x, y ∈ s.visited

theorem Explores.init (hroot : root ∉ earlier) (hnodup : earlier.Nodup) (acc : σ) :
    Explores g earlier root ⟨earlier ++ [root], [root], acc⟩ [] where
  visited := rfl
  nodup := List.concat_eq_append ▸ hnodup.concat hroot
  root_mem := List.mem_singleton_self root
  reached _ hy := List.mem_singleton.mp hy ▸ Relation.ReflTransGen.refl
  closed _ hx := absurd hx List.not_mem_nil

theorem Explores.closed_visited (h : Explores g earlier root s component) (hqueue : s.queue = [])
    (hearlier : g.Closed earlier) : g.Closed s.visited := by
  intro x hx y hy
  have hvisited := h.visited
  rw [hqueue, List.append_nil] at hvisited
  rw [hvisited, List.mem_append] at hx
  rcases hx with hold | hnew
  · rw [hvisited]
    exact List.mem_append_left _ (hearlier x hold y hy)
  · exact h.closed x hnew y hy

/-- A finished search has entered what the root reaches, without what was left before. -/
theorem Explores.mem_iff (h : Explores g earlier root s component) (hqueue : s.queue = [])
    (hearlier : g.Closed earlier) : y ∈ component ↔ g.Reaches root y ∧ y ∉ earlier := by
  have hclosed := h.closed_visited hqueue hearlier
  have hvisited := h.visited
  have hnodup := h.nodup
  have hreached := h.reached
  have hroot := h.root_mem
  rw [hqueue, List.append_nil] at hvisited hreached hroot
  rw [hvisited] at hnodup hclosed
  constructor
  · exact fun hy => ⟨hreached y hy, fun hold => (List.nodup_append.mp hnodup).2.2 y hold y hy rfl⟩
  · rintro ⟨hpath, hnew⟩
    have hall := hclosed.mem_of_reaches hpath (List.mem_append_right _ hroot)
    exact (List.mem_append.mp hall).resolve_left hnew

variable (g) in
theorem swept_nil : g.Swept [] ([], []) :=
  ⟨rfl, List.nodup_nil, fun x hx => absurd hx List.not_mem_nil, List.nil_subset _,
    fun as c bs hs => by simp at hs⟩

/-- A sweep that passes over an item that is visited. -/
theorem Swept.skip {t : List α × List (List α)} (h : g.Swept items t) (hx : x ∈ t.1) :
    g.Swept (items ++ [x]) t :=
  ⟨h.flatten, h.nodup, h.closed, List.append_subset.mpr ⟨h.subset, by simpa using hx⟩,
    fun as c bs hs => (h.found as c bs hs).snoc⟩

/-- A sweep that explores an item that is not visited. -/
theorem Swept.explored {t : List α × List (List α)} (h : g.Swept items t) (hx : x ∉ t.1)
    (hexplores : Explores g t.1 x s component) (hqueue : s.queue = []) :
    g.Swept (items ++ [x]) (s.visited, t.2 ++ [component]) := by
  have hvisited := hexplores.visited
  rw [hqueue, List.append_nil] at hvisited
  have hmem : ∀ y, y ∈ component ↔ g.Reaches x y ∧ y ∉ t.1 :=
    fun y => hexplores.mem_iff hqueue h.closed
  refine ⟨?_, hexplores.nodup, hexplores.closed_visited hqueue h.closed, fun y hy => ?_,
    fun as c bs hs => ?_⟩
  · exact List.flatten_concat.trans ((congrArg (· ++ _) h.flatten).trans hvisited.symm)
  · change y ∈ s.visited
    rw [hvisited, List.mem_append]
    rcases List.mem_append.mp hy with hold | hlast
    · exact .inl (h.subset hold)
    · obtain rfl := List.mem_singleton.mp hlast
      exact .inr ((hmem y).mpr ⟨.refl, hx⟩)
  · rcases snoc_eq_append_cons.mp hs with ⟨bs', -, hold⟩ | ⟨-, rfl, rfl⟩
    · exact (h.found as c bs' hold).snoc
    · rw [h.flatten]
      exact ⟨h.closed, items, x, [], rfl, h.subset, hx, hmem⟩

end

variable [DecidableEq α] (actions : SearchActions α σ)

/-- The items of `ys` that are not visited, once each. -/
def fresh : List α → List α → List α
  | _, [] => []
  | visited, y :: ys => if y ∈ visited then fresh visited ys else y :: fresh (visited ++ [y]) ys

def scan (x : α) : List α → SearchState α σ → SearchState α σ
  | [], s => s
  | y :: ys, s =>
    if y ∈ s.visited then scan x ys s
    else scan x ys ⟨s.visited ++ [y], s.queue ++ [y], actions.discover x y s.acc⟩

/-- Enters `x`, which has been taken from the queue. -/
def advance (x : α) (rest : List α) (s : SearchState α σ) : SearchState α σ :=
  scan actions x (g.next x) ⟨s.visited, rest, actions.enter x s.acc⟩

/-- How many of the items that links lead to are not visited. -/
def unvisited (visited : List α) : ℕ := (g.bound.filter (· ∉ visited)).length

section

variable {g} {actions} {visited ys rest : List α} {x y : α}

theorem mem_fresh : y ∈ fresh visited ys ↔ y ∈ ys ∧ y ∉ visited := by
  induction ys generalizing visited with
  | nil => simp [fresh]
  | cons z ys ih =>
    rw [fresh]
    split_ifs with hz
    · rw [ih, List.mem_cons]
      constructor
      · exact fun h => ⟨.inr h.1, h.2⟩
      · rintro ⟨rfl | hy, hnew⟩
        · exact absurd hz hnew
        · exact ⟨hy, hnew⟩
    · rw [List.mem_cons, ih, List.mem_cons, List.mem_append, List.mem_singleton]
      by_cases hy : y = z
      · simp [hy, hz]
      · simp [hy]

theorem nodup_append_fresh (h : visited.Nodup) : (visited ++ fresh visited ys).Nodup := by
  induction ys generalizing visited with
  | nil => simpa [fresh] using h
  | cons y ys ih =>
    rw [fresh]
    split_ifs with hy
    · exact ih h
    · rw [List.append_cons]
      exact ih (List.concat_eq_append ▸ h.concat hy)

theorem scan_eq (s : SearchState α σ) :
    scan actions x ys s =
      ⟨s.visited ++ fresh s.visited ys, s.queue ++ fresh s.visited ys,
        (fresh s.visited ys).foldl (fun acc y => actions.discover x y acc) s.acc⟩ := by
  induction ys generalizing s with
  | nil => simp [scan, fresh]
  | cons y ys ih =>
    rw [scan, fresh]
    split_ifs with hy
    · exact ih s
    · rw [ih]
      simp only [List.append_assoc, List.singleton_append, List.foldl_cons]

theorem unvisited_snoc_lt (hbound : y ∈ g.bound) (hnew : y ∉ visited) :
    g.unvisited (visited ++ [y]) < g.unvisited visited := by
  have hsplit : g.bound.filter (· ∉ visited ++ [y]) =
      (g.bound.filter (· ∉ visited)).filter (· ≠ y) := by
    rw [List.filter_filter]
    refine List.filter_congr fun z _ => ?_
    simp [and_comm]
  rw [unvisited, hsplit]
  refine List.length_filter_lt_length_iff_exists.mpr ⟨y, ?_, by simp⟩
  exact List.mem_filter.mpr ⟨hbound, by simpa using hnew⟩

theorem unvisited_fresh (hmem : ∀ y ∈ ys, y ∈ g.bound) :
    g.unvisited (visited ++ fresh visited ys) + (fresh visited ys).length ≤
      g.unvisited visited := by
  induction ys generalizing visited with
  | nil => simp [fresh]
  | cons y ys ih =>
    have hrest : ∀ z ∈ ys, z ∈ g.bound := fun z hz => hmem z (List.mem_cons_of_mem y hz)
    rw [fresh]
    split_ifs with hy
    · exact ih hrest
    · have hless := unvisited_snoc_lt (hmem y List.mem_cons_self) hy
      rw [List.append_cons, List.length_cons]
      have hmore : g.unvisited (visited ++ [y] ++ fresh (visited ++ [y]) ys) + _ ≤ _ := ih hrest
      omega

theorem advance_eq (x : α) (rest : List α) (s : SearchState α σ) :
    g.advance actions x rest s =
      ⟨s.visited ++ fresh s.visited (g.next x), rest ++ fresh s.visited (g.next x),
        (fresh s.visited (g.next x)).foldl (fun acc y => actions.discover x y acc)
          (actions.enter x s.acc)⟩ :=
  scan_eq _

end

/-- `while let Some(x) = queue.pop_front()`. -/
def search (s : SearchState α σ) : SearchState α σ :=
  match _hqueue : s.queue with
  | [] => s
  | x :: rest => search (g.advance actions x rest s)
termination_by g.unvisited s.visited + s.queue.length
decreasing_by
  have hless : g.unvisited (s.visited ++ fresh s.visited (g.next x)) + _ ≤ _ :=
    unvisited_fresh (g.next_mem x)
  rw [_hqueue, advance_eq, List.length_append, List.length_cons]
  change g.unvisited (s.visited ++ fresh s.visited (g.next x)) + _ < _
  omega

section

variable {g} {actions} {s : SearchState α σ} {earlier component rest : List α} {root x : α}

/-- What entering an item keeps, the search keeps. -/
theorem search_induction {P : SearchState α σ → Prop}
    (hstep : ∀ s x rest, P s → s.queue = x :: rest → P (g.advance actions x rest s)) (h : P s) :
    P (g.search actions s) ∧ (g.search actions s).queue = [] := by
  induction s using search.induct g actions with
  | case1 s hqueue =>
    rw [search]
    split
    · exact ⟨h, hqueue⟩
    · next hcons => simp [hqueue] at hcons
  | case2 s x rest hqueue ih =>
    rw [search]
    split
    · next hnil => simp [hqueue] at hnil
    · next x' rest' hcons =>
      obtain ⟨rfl, rfl⟩ := List.cons.inj (hqueue.symm.trans hcons)
      exact ih (hstep s x rest h hqueue)

theorem Explores.advance (h : Explores g earlier root s component) (hqueue : s.queue = x :: rest) :
    Explores g earlier root (g.advance actions x rest s) (component ++ [x]) := by
  have hvisited := h.visited
  rw [hqueue] at hvisited
  rw [advance_eq]
  refine ⟨?_, nodup_append_fresh h.nodup, ?_, fun y hy => ?_, fun z hz y hy => ?_⟩
  · simp only [hvisited, List.append_assoc, List.cons_append, List.nil_append]
  · have hroot := h.root_mem
    rw [hqueue] at hroot
    simp only [List.mem_append, List.mem_cons, List.not_mem_nil] at hroot ⊢
    tauto
  · have hreached := h.reached
    rw [hqueue] at hreached
    have hx := hreached x (by simp)
    simp only [List.mem_append, List.mem_singleton, mem_fresh] at hy
    rcases hy with (hy | rfl) | hy | ⟨hy, -⟩
    · exact hreached y (List.mem_append_left _ hy)
    · exact hx
    · exact hreached y (List.mem_append_right _ (List.mem_cons_of_mem x hy))
    · exact hx.tail hy
  · rw [List.mem_append, mem_fresh]
    rcases List.mem_append.mp hz with hz | hz
    · exact .inl (h.closed z hz y hy)
    · obtain rfl := List.mem_singleton.mp hz
      by_cases hold : y ∈ s.visited
      · exact .inl hold
      · exact .inr ⟨hy, hold⟩

end

/-! ## Components -/

/-- The search from an item, which lists what it enters. -/
def explore (visited : List α) (x : α) : SearchState α (List α) :=
  g.search listing ⟨visited ++ [x], [x], []⟩

/-- Explores an item that no search before has visited. -/
def sweep (s : List α × List (List α)) (x : α) : List α × List (List α) :=
  if x ∈ s.1 then s
  else
    let found := g.explore s.1 x
    (found.visited, s.2 ++ [found.acc])

section

variable {g} {visited items : List α} {s : List α × List (List α)} {x y : α}

theorem acc_advance_listing (x : α) (rest : List α) (s : SearchState α (List α)) :
    (g.advance listing x rest s).acc = s.acc ++ [x] := by
  rw [advance_eq]
  exact List.foldl_fixed _

theorem explores_explore (hx : x ∉ visited) (hnodup : visited.Nodup) :
    Explores g visited x (g.explore visited x) (g.explore visited x).acc ∧
      (g.explore visited x).queue = [] := by
  refine search_induction (P := fun s => Explores g visited x s s.acc) (fun s z rest h hqueue => ?_)
    (.init hx hnodup [])
  have hnext : Explores g visited x (g.advance listing z rest s) _ := h.advance hqueue
  rwa [← acc_advance_listing z rest s] at hnext

theorem Swept.sweep (h : g.Swept items s) (x : α) : g.Swept (items ++ [x]) (g.sweep s x) := by
  rw [FiniteGraph.sweep]
  split_ifs with hx
  · exact h.skip hx
  · obtain ⟨hexplores, hqueue⟩ := explores_explore (g := g) hx h.nodup
    exact h.explored hx hexplores hqueue

theorem swept_foldl (items : List α) : g.Swept items (items.foldl g.sweep ([], [])) := by
  induction items using List.reverseRecOn with
  | nil => exact swept_nil g
  | append_singleton items x ih =>
    rw [List.foldl_append]
    exact ih.sweep x

end

end FiniteGraph

end Wardex.Lib
