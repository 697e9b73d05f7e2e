import Mathlib.Data.List.Chain
import Wardex.Lib.Forest
import Wardex.Lib.KeyMap
import Wardex.Lib.Run

/-! The processes of a host, by their ids, and beside them the lists of children.  Ids are used
again, and the parent that a process reports need not be known.  The walk up to the ancestors
remembers where it was; the walk down to the descendants does not, and stays forever on a circle of
parents. -/

namespace Wardex.Processes

open Wardex.Lib

structure ProcessNode where
  pid : UInt32
  ppid : UInt32
  name : String
  cmdLine : Option String
  startTime : Option String
  user : Option String
  exePath : Option String
  exeHash : Option String
  hostname : String
  alive : Bool
  deriving DecidableEq

structure ProcessTree where
  nodes : KeyMap UInt32 ProcessNode
  children : KeyMap UInt32 (List UInt32)
  hostname : String

inductive TreeOp
  | upsert (node : ProcessNode)
  | markTerminated (pid : UInt32)

namespace ProcessTree

def new (hostname : String) : ProcessTree := ⟨KeyMap.empty, KeyMap.empty, hostname⟩

/-- The lists of children without a process that gets another parent. -/
def detached (t : ProcessTree) (node : ProcessNode) : KeyMap UInt32 (List UInt32) :=
  match t.nodes node.pid with
  | some old =>
    -- a process that reports the same parent again stays where it is listed
    if old.ppid ≠ node.ppid then
      t.children.modify old.ppid fun siblings => siblings.filter (· ≠ node.pid)
    else t.children
  | none => t.children

def upsert (t : ProcessTree) (node : ProcessNode) : ProcessTree :=
  let children := t.detached node
  let siblings := (children node.ppid).getD []
  { t with
    nodes := t.nodes.insert node.pid node
    children := children.insert node.ppid
      -- the source looks the id up first, so that it is not listed twice
      (if node.pid ∈ siblings then siblings else siblings ++ [node.pid]) }

def markTerminated (t : ProcessTree) (pid : UInt32) : ProcessTree :=
  { t with nodes := t.nodes.modify pid fun node => { node with alive := false } }

def apply (t : ProcessTree) : TreeOp → ProcessTree
  | .upsert node => t.upsert node
  | .markTerminated pid => t.markTerminated pid

def childPids (t : ProcessTree) (pid : UInt32) : List UInt32 := (t.children pid).getD []

def childrenOf (t : ProcessTree) (pid : UInt32) : List ProcessNode :=
  (t.childPids pid).filterMap t.nodes

/-- The loop over the ancestors, which remembers where it was. -/
def lineageLoop (t : ProcessTree) : ℕ → UInt32 → List UInt32 → List ProcessNode →
    Option (List ProcessNode)
  | 0, _, _, _ => none
  | fuel + 1, current, visited, result =>
    match t.nodes current with
    | none => some result
    | some node =>
      if current ∈ visited then some result
      -- the root of the tree, or a process that reports itself
      else if node.ppid = 0 ∨ node.ppid = current then some (result ++ [node])
      else t.lineageLoop fuel node.ppid (current :: visited) (result ++ [node])

def lineage (t : ProcessTree) (fuel : ℕ) (pid : UInt32) : Option (List ProcessNode) :=
  t.lineageLoop fuel pid [] []

/-- The loop over the descendants: the children of a process that are known go to the result and
on the stack. -/
def descendantsLoop (t : ProcessTree) : ℕ → List UInt32 → List ProcessNode →
    Option (List ProcessNode)
  | _, [], result => some result
  | 0, _ :: _, _ => none
  | fuel + 1, p :: stack, result =>
    let kids := (t.childPids p).filter fun kid => (t.nodes kid).isSome
    t.descendantsLoop fuel (kids.reverse ++ stack) (result ++ t.childrenOf p)

def descendants (t : ProcessTree) (fuel : ℕ) (pid : UInt32) : Option (List ProcessNode) :=
  t.descendantsLoop fuel [pid] []

/-- The parent that a process has reported. -/
def parent (t : ProcessTree) (pid : UInt32) : Option UInt32 := (t.nodes pid).map ProcessNode.ppid

/-- Finitely many processes are known, each under its own id, and each is listed as a child of the
parent that it has reported. -/
structure Consistent (t : ProcessTree) : Prop where
  pid : ∀ pid node, t.nodes pid = some node → node.pid = pid
  lists : ListsChildren t.parent t.childPids
  finite : ∃ known : List UInt32, ∀ pid, (t.nodes pid).isSome → pid ∈ known

variable {t : ProcessTree}

theorem parent_eq_some {pid ppid : UInt32} :
    t.parent pid = some ppid ↔ ∃ node, t.nodes pid = some node ∧ node.ppid = ppid :=
  Option.map_eq_some_iff

theorem consistent_new (hostname : String) : (new hostname).Consistent where
  pid _ _ h := nomatch h
  lists := ⟨fun _ _ => ⟨fun h => absurd h List.not_mem_nil, fun h => nomatch h⟩,
    fun _ => List.nodup_nil⟩
  finite := ⟨[], fun _ h => nomatch h⟩

theorem nodes_upsert (t : ProcessTree) (node : ProcessNode) :
    (t.upsert node).nodes = t.nodes.insert node.pid node := rfl

theorem nodes_markTerminated (t : ProcessTree) (pid : UInt32) :
    (t.markTerminated pid).nodes =
      t.nodes.modify pid fun node => { node with alive := false } := rfl

theorem parent_upsert (t : ProcessTree) (node : ProcessNode) (pid : UInt32) :
    (t.upsert node).parent pid = if pid = node.pid then some node.ppid else t.parent pid := by
  rw [parent, nodes_upsert, KeyMap.insert_apply]
  split_ifs <;> rfl

theorem filter_childPids (h : t.Consistent) {pid x : UInt32} (hx : t.parent pid ≠ some x) :
    (t.childPids x).filter (· ≠ pid) = t.childPids x := by
  rw [List.filter_eq_self]
  intro y hy
  refine decide_eq_true fun hpid => hx ?_
  rw [← hpid, ← h.lists.mem x y]
  exact hy

/-- A process is taken from every list but the one it is to be in. -/
theorem getD_detached (h : t.Consistent) (node : ProcessNode) (x : UInt32) :
    (t.detached node x).getD [] =
      if x = node.ppid then t.childPids x else (t.childPids x).filter (· ≠ node.pid) := by
  cases hold : t.nodes node.pid with
  | none =>
    have hx : t.parent node.pid ≠ some x := by simp [parent, hold]
    rw [filter_childPids h hx, ite_self]
    simp only [detached, hold]
    rfl
  | some old =>
    have hparent : t.parent node.pid = some old.ppid := by simp [parent, hold]
    simp only [detached, hold]
    -- only the list of the parent reported before is filtered; no other one has the process
    by_cases hne : old.ppid ≠ node.ppid
    · rw [if_pos hne]
      by_cases hx : x = old.ppid
      · rw [if_neg (hx ▸ hne), hx, KeyMap.modify_self, childPids]
        cases t.children old.ppid <;> rfl
      · have hx' : t.parent node.pid ≠ some x := fun heq =>
          hx (Option.some.inj (heq.symm.trans hparent))
        rw [KeyMap.modify_of_ne _ hx, filter_childPids h hx', ite_self]
        rfl
    · rw [if_neg hne]
      split_ifs with hx
      · rfl
      · have hx' : t.parent node.pid ≠ some x := fun heq =>
          hx ((Option.some.inj (heq.symm.trans hparent)).trans (not_not.mp hne))
        rw [filter_childPids h hx']
        rfl

theorem childPids_upsert (h : t.Consistent) (node : ProcessNode) (x : UInt32) :
    (t.upsert node).childPids x =
      if x = node.ppid then
        if node.pid ∈ t.childPids x then t.childPids x else t.childPids x ++ [node.pid]
      else (t.childPids x).filter (· ≠ node.pid) := by
  have hinsert : (t.upsert node).children = (t.detached node).insert node.ppid
      (if node.pid ∈ (t.detached node node.ppid).getD [] then (t.detached node node.ppid).getD []
        else (t.detached node node.ppid).getD [] ++ [node.pid]) := rfl
  rw [childPids, hinsert, KeyMap.insert_apply, getD_detached h, if_pos rfl]
  by_cases hx : x = node.ppid
  · rw [if_pos hx, if_pos hx, Option.getD_some, hx]
  · rw [if_neg hx, if_neg hx, getD_detached h, if_neg hx]

theorem Consistent.upsert (h : t.Consistent) (node : ProcessNode) :
    (t.upsert node).Consistent where
  pid pid n hn := by
    rw [nodes_upsert, KeyMap.insert_apply] at hn
    split_ifs at hn with hpid
    · rw [hpid, ← Option.some.inj hn]
    · exact h.pid pid n hn
  lists := by
    refine ⟨fun x y => ?_, fun x => ?_⟩
    · rw [childPids_upsert h, parent_upsert]
      have hold := h.lists.mem x y
      by_cases hy : y = node.pid
      · subst hy
        rw [if_pos rfl]
        split_ifs with hx hmem
        · exact iff_of_true hmem (by rw [hx])
        · exact iff_of_true (List.mem_append_right _ List.mem_cons_self) (by rw [hx])
        · refine iff_of_false (fun hmem => ?_) fun heq => hx (Option.some.inj heq).symm
          exact of_decide_eq_true (List.mem_filter.mp hmem).2 rfl
      · rw [if_neg hy, ← hold]
        split_ifs
        · exact Iff.rfl
        · simp [hy]
        · simp [hy]
    · rw [childPids_upsert h]
      have hnodup := h.lists.nodup x
      split_ifs with hx hmem
      · exact hnodup
      · exact List.concat_eq_append ▸ hnodup.concat hmem
      · exact hnodup.filter _
  finite := by
    obtain ⟨known, hknown⟩ := h.finite
    refine ⟨node.pid :: known, fun pid hpid => ?_⟩
    rw [nodes_upsert, KeyMap.insert_apply] at hpid
    split_ifs at hpid with heq
    · exact heq ▸ List.mem_cons_self
    · exact List.mem_cons_of_mem _ (hknown pid hpid)

theorem parent_markTerminated (t : ProcessTree) (pid : UInt32) :
    (t.markTerminated pid).parent = t.parent := by
  funext x
  rw [parent, nodes_markTerminated, parent]
  by_cases hx : x = pid
  · rw [hx, KeyMap.modify_self, Option.map_map]
    rfl
  · rw [KeyMap.modify_of_ne _ hx]

theorem Consistent.markTerminated (h : t.Consistent) (pid : UInt32) :
    (t.markTerminated pid).Consistent where
  pid x node hnode := by
    rw [nodes_markTerminated] at hnode
    by_cases hx : x = pid
    · rw [hx, KeyMap.modify_self] at hnode
      obtain ⟨old, hold, rfl⟩ := Option.map_eq_some_iff.mp hnode
      exact hx ▸ h.pid pid old hold
    · rw [KeyMap.modify_of_ne _ hx] at hnode
      exact h.pid x node hnode
  lists := by
    rw [parent_markTerminated]
    exact h.lists
  finite := by
    obtain ⟨known, hknown⟩ := h.finite
    refine ⟨known, fun x hx => hknown x ?_⟩
    rw [nodes_markTerminated] at hx
    by_cases heq : x = pid
    · rw [heq, KeyMap.modify_self, Option.isSome_map] at hx
      exact heq ▸ hx
    · rwa [KeyMap.modify_of_ne _ heq] at hx

theorem Consistent.run (ops : List TreeOp) (h : t.Consistent) :
    (run apply t ops).Consistent := by
  refine run_invariant (P := fun _ _ => True) (fun s op hs _ => ?_) h ?_
  · cases op with
    | upsert node => exact hs.upsert node
    | markTerminated pid => exact hs.markTerminated pid
  · exact along_iff.mpr fun _ _ _ _ => trivial

/-! ## Ancestors -/

/-- The processes are distinct, and each but the first is the recorded parent of the one before. -/
structure IsLineage (t : ProcessTree) (result : List ProcessNode) : Prop where
  nodup : (result.map ProcessNode.pid).Nodup
  chain : result.IsChain fun node next => t.nodes node.ppid = some next

/-- A walk up that has come to `current`. -/
structure Ascended (t : ProcessTree) (current : UInt32) (visited : List UInt32)
    (result : List ProcessNode) : Prop where
  isLineage : t.IsLineage result
  visited : ∀ pid, pid ∈ visited ↔ pid ∈ result.map ProcessNode.pid
  known : ∀ node ∈ result, t.nodes node.pid = some node
  next : ∀ node ∈ result.getLast?, node.ppid = current

theorem ascended_nil (t : ProcessTree) (pid : UInt32) : t.Ascended pid [] [] where
  isLineage := ⟨List.nodup_nil, .nil⟩
  visited _ := Iff.rfl
  known _ h := absurd h List.not_mem_nil
  next _ h := nomatch h

theorem Ascended.snoc {current : UInt32} {visited : List UInt32} {result : List ProcessNode}
    {node : ProcessNode} (h : t.Ascended current visited result) (hpid : node.pid = current)
    (hnode : t.nodes current = some node) (hnew : current ∉ visited) :
    t.Ascended node.ppid (current :: visited) (result ++ [node]) where
  isLineage := by
    constructor
    · rw [List.map_append, List.map_singleton, hpid, ← List.concat_eq_append]
      exact h.isLineage.nodup.concat fun hmem => hnew ((h.visited current).mpr hmem)
    · rw [List.isChain_append]
      refine ⟨h.isLineage.chain, .singleton node, fun last hlast first hfirst => ?_⟩
      obtain rfl : node = first := Option.some.inj hfirst
      rw [h.next last hlast, hnode]
  visited pid := by
    rw [List.mem_cons, h.visited, List.map_append, List.mem_append, List.map_singleton,
      List.mem_singleton, hpid, or_comm]
  known x hx := by
    rcases List.mem_append.mp hx with hx | hx
    · exact h.known x hx
    · rw [List.mem_singleton.mp hx, hpid, hnode]
  next x hx := by
    rw [List.getLast?_concat, Option.mem_some_iff] at hx
    rw [← hx]

/-- The walk up ends, since it takes no known process twice. -/
theorem Ascended.ends (ht : t.Consistent) {known : List UInt32}
    (hknown : ∀ pid, (t.nodes pid).isSome → pid ∈ known) {fuel : ℕ} {current : UInt32}
    {visited : List UInt32} {result : List ProcessNode} (h : t.Ascended current visited result)
    (hfuel : known.length + 1 ≤ fuel + result.length) :
    ∃ lineage, t.lineageLoop fuel current visited result = some lineage ∧
      t.IsLineage lineage := by
  induction fuel generalizing current visited result with
  | zero =>
    -- the processes passed are distinct and known, so that there was fuel for all of them
    have hsubset : result.map ProcessNode.pid ⊆ known := by
      intro pid hpid
      obtain ⟨node, hnode, rfl⟩ := List.mem_map.mp hpid
      exact hknown _ (Option.isSome_of_eq_some (h.known node hnode))
    have hlength := (h.isLineage.nodup.subperm hsubset).length_le
    rw [List.length_map] at hlength
    omega
  | succ fuel ih =>
    unfold lineageLoop
    cases hnode : t.nodes current with
    | none => exact ⟨result, rfl, h.isLineage⟩
    | some node =>
      by_cases hmem : current ∈ visited
      · exact ⟨result, if_pos hmem, h.isLineage⟩
      have hsnoc := h.snoc (ht.pid current node hnode) hnode hmem
      dsimp only
      rw [if_neg hmem]
      by_cases hstop : node.ppid = 0 ∨ node.ppid = current
      · exact ⟨result ++ [node], if_pos hstop, hsnoc.isLineage⟩
      · rw [if_neg hstop]
        refine ih hsnoc ?_
        rw [List.length_append, List.length_singleton]
        omega

/-- However processes come, get other parents and end, each is listed as a child of its parent
once and nowhere else, and every walk up ends and goes from parent to parent without coming back. -/
theorem index_consistent (hostname : String) (ops : List TreeOp) :
    let t := run apply (new hostname) ops
    (∀ pid ppid, (t.childPids ppid).count pid =
      if (t.nodes pid).map ProcessNode.ppid = some ppid then 1 else 0) ∧
    ∀ pid, ∃ fuel lineage, t.lineage fuel pid = some lineage ∧ t.IsLineage lineage := by
  intro t
  have ht : t.Consistent := (consistent_new hostname).run ops
  refine ⟨fun pid ppid => ht.lists.count ppid pid, fun pid => ?_⟩
  obtain ⟨known, hknown⟩ := ht.finite
  exact ⟨known.length + 1, (ascended_nil t pid).ends ht hknown (Nat.le_refl _)⟩

/-! ## Descendants -/

/-- Each process that one or more child links lead to is in the result, once. -/
structure IsDescendants (t : ProcessTree) (pid : UInt32) (result : List ProcessNode) : Prop where
  nodup : (result.map ProcessNode.pid).Nodup
  mem : ∀ node, node ∈ result ↔ t.nodes node.pid = some node ∧ Below t.parent pid node.pid

theorem isSome_nodes_of_mem (ht : t.Consistent) {x y : UInt32} (hy : y ∈ t.childPids x) :
    (t.nodes y).isSome := by
  obtain ⟨node, hnode, -⟩ := parent_eq_some.mp ((ht.lists.mem x y).mp hy)
  exact Option.isSome_of_eq_some hnode

/-- The loop is the walk down the lists of children, with the ids looked up. -/
theorem descendantsLoop_eq (ht : t.Consistent) (fuel : ℕ) (stack found : List UInt32) :
    t.descendantsLoop fuel stack (found.filterMap t.nodes) =
      (descend t.childPids fuel stack found).map (List.filterMap t.nodes) := by
  induction fuel generalizing stack found with
  | zero => cases stack <;> rfl
  | succ fuel ih =>
    cases stack with
    | nil => rfl
    | cons x stack =>
      -- in a consistent tree every listed child is known, so that no id is dropped
      have hfilter : (t.childPids x).filter (fun kid => (t.nodes kid).isSome) = t.childPids x :=
        List.filter_eq_self.mpr fun y hy => isSome_nodes_of_mem ht hy
      rw [descendantsLoop, descend, ← ih, List.filterMap_append, hfilter]
      rfl

theorem descendants_eq (ht : t.Consistent) (fuel : ℕ) (pid : UInt32) :
    t.descendants fuel pid =
      (descend t.childPids fuel [pid] []).map (List.filterMap t.nodes) :=
  descendantsLoop_eq ht fuel [pid] []

theorem descendants_eq_none (ht : t.Consistent) {pid : UInt32} (hcycle : Below t.parent pid pid)
    (fuel : ℕ) : t.descendants fuel pid = none := by
  rw [descendants_eq ht, descend_eq_none ht.lists List.mem_cons_self hcycle, Option.map_none]

/-- Ids that are all known, looked up and read off again. -/
theorem map_pid_filterMap (ht : t.Consistent) {found : List UInt32}
    (h : ∀ pid ∈ found, (t.nodes pid).isSome) :
    (found.filterMap t.nodes).map ProcessNode.pid = found := by
  induction found with
  | nil => rfl
  | cons pid found ih =>
    obtain ⟨node, hnode⟩ := Option.isSome_iff_exists.mp (h pid List.mem_cons_self)
    rw [List.filterMap_cons_some hnode, List.map_cons, ht.pid pid node hnode,
      ih fun x hx => h x (List.mem_cons_of_mem pid hx)]

theorem isSome_nodes_of_below (ht : t.Consistent) {x y : UInt32} (h : Below t.parent x y) :
    (t.nodes y).isSome := by
  obtain ⟨z, -, hlink⟩ := Relation.TransGen.tail'_iff.mp h
  exact isSome_nodes_of_mem ht ((ht.lists.mem z y).mpr hlink)

theorem isDescendants_filterMap (ht : t.Consistent) {pid : UInt32} {found : List UInt32}
    (hnodup : found.Nodup) (hmem : ∀ y, y ∈ found ↔ Below t.parent pid y) :
    t.IsDescendants pid (found.filterMap t.nodes) := by
  have hknown : ∀ y ∈ found, (t.nodes y).isSome :=
    fun y hy => isSome_nodes_of_below ht ((hmem y).mp hy)
  refine ⟨(map_pid_filterMap ht hknown).symm ▸ hnodup, fun node => ?_⟩
  rw [List.mem_filterMap]
  constructor
  · rintro ⟨y, hy, hnode⟩
    have hpid := ht.pid y node hnode
    exact ⟨hpid.symm ▸ hnode, hpid.symm ▸ (hmem y).mp hy⟩
  · rintro ⟨hnode, hbelow⟩
    exact ⟨node.pid, (hmem _).mpr hbelow, hnode⟩

/-- The walk down ends with each descendant once if and only if the process is not its own
ancestor. -/
theorem descendants_iff (hostname : String) (ops : List TreeOp) (pid : UInt32) :
    let t := run apply (new hostname) ops
    (∃ fuel result, t.descendants fuel pid = some result ∧ t.IsDescendants pid result) ↔
      ¬ Below t.parent pid pid := by
  intro t
  have ht : t.Consistent := (consistent_new hostname).run ops
  obtain ⟨known, hknown⟩ := ht.finite
  have hbound : ∀ y, (t.parent y).isSome → y ∈ known := fun y hy =>
    hknown y (by rwa [parent, Option.isSome_map] at hy)
  constructor
  · rintro ⟨fuel, result, hresult, -⟩ hcycle
    rw [descendants_eq_none ht hcycle] at hresult
    cases hresult
  · intro hroot
    obtain ⟨fuel, found, hfound, hnodup, hmem⟩ := (descend_iff ht.lists hbound pid).mpr hroot
    refine ⟨fuel, found.filterMap t.nodes, ?_, isDescendants_filterMap ht hnodup hmem⟩
    rw [descendants_eq ht, hfound, Option.map_some]

def reported (pid ppid : UInt32) (name : String) : ProcessNode :=
  ⟨pid, ppid, name, none, none, none, none, none, "test", true⟩

/-- Two processes that have reported each other as their parent. -/
def mutualParents : List TreeOp := [.upsert (reported 10 20 "a"), .upsert (reported 20 10 "b")]

/-- The walk down from the first of them does not end. -/
theorem mutual_parents_loop :
    ¬ ∀ (hostname : String) (ops : List TreeOp) (pid : UInt32),
      let t := run apply (new hostname) ops
      ∃ fuel result, t.descendants fuel pid = some result ∧ t.IsDescendants pid result := by
  intro h
  obtain ⟨fuel, result, hresult, -⟩ := h "test" mutualParents 10
  have ht := (consistent_new "test").run mutualParents
  have hdown : ChildLink (run apply (new "test") mutualParents).parent 10 20 := rfl
  have hback : ChildLink (run apply (new "test") mutualParents).parent 20 10 := rfl
  rw [descendants_eq_none ht (Relation.TransGen.tail (.single hdown) hback)] at hresult
  cases hresult

end ProcessTree

end Wardex.Processes
