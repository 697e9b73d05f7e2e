import Wardex.Lib.KeyMap
import Wardex.Lib.Search

/-! The labels of a breadth-first search: each item that it discovers gets a parent and a depth.
The depths in the queue ascend, and no depth is more than one above that of its head. -/

namespace Wardex.Lib

open FiniteGraph (fresh mem_fresh)

variable {α : Type*}

/-- A path of this many steps. -/
inductive Walk (r : α → α → Prop) (x : α) : ℕ → α → Prop
  | nil : Walk r x 0 x
  | snoc {n : ℕ} {y z : α} : Walk r x n y → r y z → Walk r x (n + 1) z

def climb (parent : KeyMap α α) : ℕ → α → Option α
  | 0, y => some y
  | n + 1, y => (parent y).bind (climb parent n)

structure Labels (α : Type*) where
  parent : KeyMap α α
  depth : KeyMap α ℕ

namespace Labels

def level (t : Labels α) (y : α) : ℕ := (t.depth y).getD 0

variable [DecidableEq α]

def discover (t : Labels α) (x : α) (new : List α) : Labels α where
  parent y := if y ∈ new then some x else t.parent y
  depth y := if y ∈ new then some (t.level x + 1) else t.depth y

variable {t : Labels α} {x y : α} {new : List α}

theorem parent_discover_of_mem (h : y ∈ new) : (t.discover x new).parent y = some x := if_pos h

theorem parent_discover_of_not_mem (h : y ∉ new) : (t.discover x new).parent y = t.parent y :=
  if_neg h

theorem level_discover_of_mem (h : y ∈ new) : (t.discover x new).level y = t.level x + 1 := by
  simp [level, discover, h]

theorem level_discover_of_not_mem (h : y ∉ new) : (t.discover x new).level y = t.level y := by
  simp [level, discover, h]

end Labels

/-- The labels when the search has entered `component` and holds the queue. -/
structure Leveled (g : FiniteGraph α) (root : α) (component queue : List α) (t : Labels α) :
    Prop where
  depth_known : ∀ y, (t.depth y).isSome ↔ y ∈ component ++ queue
  parent_known : ∀ y, (t.parent y).isSome ↔ y ∈ component ++ queue
  level_root : t.level root = 0
  origin : ∀ y ∈ component ++ queue, y = root ∨
    ∃ z ∈ component ++ queue, t.parent y = some z ∧ g.Link z y ∧ t.level y = t.level z + 1
  ascends : queue.Pairwise fun y z => t.level y ≤ t.level z
  narrow : ∀ x ∈ queue.head?, ∀ y ∈ component ++ queue, t.level y ≤ t.level x + 1
  links : ∀ y ∈ component, ∀ z ∈ g.next y, t.level z ≤ t.level y + 1

section

variable {g : FiniteGraph α} {root x y : α} {component rest new : List α} {t : Labels α} {n : ℕ}

/-- An item on level `n` is `n` links away from the root. -/
theorem Leveled.walk (h : Leveled g root component [] t) (hy : y ∈ component) :
    Walk g.Link root (t.level y) y := by
  generalize hn : t.level y = n
  induction n generalizing y with
  | zero =>
    rcases h.origin y (by simpa using hy) with rfl | ⟨z, -, -, -, hlevel⟩
    · exact .nil
    · omega
  | succ n ih =>
    rcases h.origin y (by simpa using hy) with rfl | ⟨z, hz, -, hlink, hlevel⟩
    · exact absurd (h.level_root.symm.trans hn) (by omega)
    · exact (ih (by simpa using hz) (by omega)).snoc hlink

/-- No path is shorter than the level: each link goes up by one level at most. -/
theorem Leveled.level_le (h : Leveled g root component [] t) (hroot : root ∈ component)
    (hclosed : g.Closed component) (hwalk : Walk g.Link root n y) : t.level y ≤ n := by
  have hboth : y ∈ component ∧ t.level y ≤ n := by
    induction hwalk with
    | nil => exact ⟨hroot, Nat.le_of_eq h.level_root⟩
    | snoc _ hlink ih =>
      exact ⟨hclosed _ ih.1 _ hlink, Nat.le_trans (h.links _ ih.1 _ hlink) (Nat.succ_le_succ ih.2)⟩
  exact hboth.2

/-- The root is met after as many parents as the level says, and not before. -/
theorem Leveled.climb (h : Leveled g root component [] t) (hy : y ∈ component) :
    climb t.parent (t.level y) y = some root ∧
      ∀ k < t.level y, climb t.parent k y ≠ some root := by
  generalize hn : t.level y = n
  induction n generalizing y with
  | zero =>
    rcases h.origin y (by simpa using hy) with rfl | ⟨z, -, -, -, hlevel⟩
    · exact ⟨rfl, fun k hk => absurd hk k.not_lt_zero⟩
    · omega
  | succ n ih =>
    rcases h.origin y (by simpa using hy) with rfl | ⟨z, hz, hparent, -, hlevel⟩
    · exact absurd (h.level_root.symm.trans hn) (by omega)
    obtain ⟨hroot, hbefore⟩ := ih (y := z) (by simpa using hz) (by omega)
    refine ⟨by rw [Lib.climb, hparent]; exact hroot, fun k hk hclimb => ?_⟩
    cases k with
    | zero =>
      obtain rfl := Option.some.inj hclimb
      exact absurd (h.level_root.symm.trans hn) (by omega)
    | succ k =>
      rw [Lib.climb, hparent] at hclimb
      exact hbefore k (by omega) hclimb

variable [DecidableEq α]

theorem Leveled.init (root : α) :
    Leveled g root [] [root] ⟨KeyMap.empty.insert root root, KeyMap.empty.insert root 0⟩ := by
  refine ⟨fun y => ?_, fun y => ?_, ?_, fun y hy => .inl (by simpa using hy),
    List.pairwise_singleton _ _, fun x hx y hy => ?_, fun y hy => absurd hy List.not_mem_nil⟩
  · by_cases hy : y = root <;> simp [KeyMap.insert_apply, hy]
  · by_cases hy : y = root <;> simp [KeyMap.insert_apply, hy]
  · simp [Labels.level]
  · obtain rfl : y = root := by simpa using hy
    simp [Labels.level]

/-- Entering the head of the queue keeps the levels. -/
theorem Leveled.advance {σ : Type*} {s : SearchState α σ}
    (h : Leveled g root component (x :: rest) t) (hs : g.Explores [] root s component)
    (hqueue : s.queue = x :: rest) :
    Leveled g root (component ++ [x]) (rest ++ fresh s.visited (g.next x))
      (t.discover x (fresh s.visited (g.next x))) := by
  have hvisited := hs.visited
  have hroot := hs.root_mem
  rw [hqueue] at hvisited hroot
  rw [List.nil_append] at hvisited
  obtain ⟨new, hnew⟩ : ∃ new, new = fresh s.visited (g.next x) := ⟨_, rfl⟩
  have hfresh : ∀ y, y ∈ new ↔ y ∈ g.next x ∧ y ∉ component ++ x :: rest := fun y => by
    rw [hnew, mem_fresh, hvisited]
  have hold : ∀ y ∈ component ++ x :: rest, y ∉ new := fun y hy hmem => ((hfresh y).mp hmem).2 hy
  have hmem : ∀ y, y ∈ component ++ [x] ++ (rest ++ new) ↔
      y ∈ component ++ x :: rest ∨ y ∈ new := by
    intro y
    simp only [List.mem_append, List.mem_cons, List.not_mem_nil, or_false]
    tauto
  have hx : x ∈ component ++ x :: rest := List.mem_append_right _ List.mem_cons_self
  have hsame : ∀ y ∈ component ++ x :: rest, (t.discover x new).level y = t.level y :=
    fun y hy => Labels.level_discover_of_not_mem (hold y hy)
  have hnext : ∀ y ∈ new, (t.discover x new).level y = t.level x + 1 :=
    fun y hy => Labels.level_discover_of_mem hy
  -- the levels in the queue are that of `x` and the next one
  have habove : ∀ y ∈ rest, t.level x ≤ t.level y := (List.pairwise_cons.mp h.ascends).1
  have hbelow : ∀ y ∈ component ++ x :: rest, t.level y ≤ t.level x + 1 := h.narrow x rfl
  rw [← hnew]
  refine ⟨fun y => ?_, fun y => ?_, ?_, fun y hy => ?_, ?_, fun a ha y hy => ?_,
    fun y hy z hz => ?_⟩
  · rw [hmem, ← h.depth_known, Labels.discover]
    by_cases hy : y ∈ new <;> simp [hy]
  · rw [hmem, ← h.parent_known, Labels.discover]
    by_cases hy : y ∈ new <;> simp [hy]
  · rw [hsame root hroot, h.level_root]
  · rcases (hmem y).mp hy with hy | hy
    · refine (h.origin y hy).imp_right ?_
      rintro ⟨z, hz, hparent, hlink, hlevel⟩
      refine ⟨z, (hmem z).mpr (.inl hz), ?_, hlink, by rw [hsame y hy, hsame z hz, hlevel]⟩
      exact (Labels.parent_discover_of_not_mem (hold y hy)).trans hparent
    · exact .inr ⟨x, (hmem x).mpr (.inl hx), Labels.parent_discover_of_mem hy,
        ((hfresh y).mp hy).1, by rw [hnext y hy, hsame x hx]⟩
  · have hrest : ∀ y ∈ rest, (t.discover x new).level y = t.level y := fun y hy =>
      hsame y (List.mem_append_right _ (List.mem_cons_of_mem x hy))
    refine List.pairwise_append.mpr ⟨?_, ?_, fun y hy z hz => ?_⟩
    · refine (List.pairwise_cons.mp h.ascends).2.imp_of_mem fun hy hz hle => ?_
      rwa [hrest _ hy, hrest _ hz]
    · exact List.pairwise_of_forall_mem_list fun y hy z hz =>
        Nat.le_of_eq ((hnext y hy).trans (hnext z hz).symm)
    · rw [hrest y hy, hnext z hz]
      exact hbelow y (List.mem_append_right _ (List.mem_cons_of_mem x hy))
  · have hlow : t.level x ≤ (t.discover x new).level a := by
      rcases List.mem_append.mp (List.mem_of_mem_head? ha) with ha | ha
      · rw [hsame a (List.mem_append_right _ (List.mem_cons_of_mem x ha))]
        exact habove a ha
      · rw [hnext a ha]
        exact Nat.le_succ _
    have hhigh : (t.discover x new).level y ≤ t.level x + 1 := by
      rcases (hmem y).mp hy with hy | hy
      · rw [hsame y hy]
        exact hbelow y hy
      · exact Nat.le_of_eq (hnext y hy)
    omega
  · rcases List.mem_append.mp hy with hy | hy
    · have hzold : z ∈ component ++ x :: rest := hvisited ▸ hs.closed y hy z hz
      rw [hsame z hzold, hsame y (List.mem_append_left _ hy)]
      exact h.links y hy z hz
    · obtain rfl := List.mem_singleton.mp hy
      rw [hsame y hx]
      by_cases hzold : z ∈ component ++ y :: rest
      · rw [hsame z hzold]
        exact hbelow z hzold
      · exact Nat.le_of_eq (hnext z ((hfresh z).mpr ⟨hz, hzold⟩))

end

end Wardex.Lib
