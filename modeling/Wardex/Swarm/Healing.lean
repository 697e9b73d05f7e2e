import Wardex.Lib.Levels
import Wardex.Policy.Correctness
import Wardex.Swarm.Partitions

/-! The spanning tree is a tree of shortest paths; the bridges that healing proposes join any two
partitions, and applying repairs only adds links. -/

namespace Wardex.Swarm

open Wardex.Lib Wardex.Policy

section

variable {F : Type}

/-- What is reached has a parent and a depth, which is the length of the shortest path; the root is
that many parents away. -/
structure IsShortestPathTree (mesh : List (MeshNode F)) (rootId : String) (tree : SpanningTree) :
    Prop where
  root_eq : tree.root = rootId
  depth_known : ∀ id, (tree.depth id).isSome ↔ Reachable mesh rootId id
  parent_known : ∀ id, (tree.parent id).isSome ↔ Reachable mesh rootId id
  counts : ∃ reached : List String, reached.Nodup ∧
    (∀ id, id ∈ reached ↔ Reachable mesh rootId id) ∧ tree.nodesReached = reached.length
  shortest : ∀ id d, tree.depth id = some d →
    Walk (Linked mesh) rootId d id ∧ ∀ n, Walk (Linked mesh) rootId n id → d ≤ n
  climbs : ∀ id d, tree.depth id = some d →
    climb tree.parent d id = some rootId ∧ ∀ k < d, climb tree.parent k id ≠ some rootId

def Growth.labels (t : Growth) : Labels String := ⟨t.parent, t.depth⟩

section

variable {g : FiniteGraph String} {rootId current : String} {rest component : List String}

theorem foldl_discover (new : List String) (t : Growth) :
    new.foldl (fun acc y => growth.discover current y acc) (some t) =
      some ⟨fun y => if y ∈ new then some current else t.parent y,
        fun y => if y ∈ new then some (t.currentDepth + 1) else t.depth y, t.currentDepth⟩ := by
  induction new generalizing t with
  | nil => simp
  | cons y new ih =>
    have hdiscover : growth.discover current y (some t) =
        some ⟨t.parent.insert y current, t.depth.insert y (t.currentDepth + 1),
          t.currentDepth⟩ := rfl
    rw [List.foldl_cons, hdiscover, ih]
    simp only [KeyMap.insert_apply, List.mem_cons, Option.some.injEq, Growth.mk.injEq, and_true]
    constructor
    · funext z
      by_cases hz : z ∈ new <;> simp [hz]
    · funext z
      by_cases hz : z ∈ new <;> simp [hz]

/-- Entering an item with a depth labels what is discovered from there. -/
theorem growth_advance (g : FiniteGraph String) (rest : List String) {t : Growth}
    {s : SearchState String (Option Growth)} (hacc : s.acc = some t)
    (hdepth : (t.depth current).isSome) :
    ∃ t', (g.advance growth current rest s).acc = some t' ∧
      t'.labels = t.labels.discover current (FiniteGraph.fresh s.visited (g.next current)) := by
  obtain ⟨d, hd⟩ := Option.isSome_iff_exists.mp hdepth
  have henter : growth.enter current s.acc = some { t with currentDepth := d } := by
    rw [hacc]
    simp [growth, hd]
  rw [FiniteGraph.advance_eq, henter]
  refine ⟨_, foldl_discover _ _, ?_⟩
  simp only [Growth.labels, Labels.discover, Labels.level, hd, Option.getD_some]

def Grows (g : FiniteGraph String) (rootId : String) (s : SearchState String (Option Growth)) :
    Prop :=
  ∃ component t, s.acc = some t ∧ g.Explores [] rootId s component ∧
    Leveled g rootId component s.queue t.labels

theorem grows_advance {s : SearchState String (Option Growth)} (h : Grows g rootId s)
    (hqueue : s.queue = current :: rest) : Grows g rootId (g.advance growth current rest s) := by
  obtain ⟨component, t, hacc, hexplores, hleveled⟩ := h
  rw [hqueue] at hleveled
  have hknown : (t.depth current).isSome :=
    (hleveled.depth_known current).mpr (List.mem_append_right _ List.mem_cons_self)
  obtain ⟨t', hacc', hlabels⟩ := growth_advance g rest hacc hknown
  refine ⟨component ++ [current], t', hacc', hexplores.advance hqueue, ?_⟩
  rw [hlabels, FiniteGraph.advance_eq]
  exact hleveled.advance hexplores hqueue

/-- The search ends with labels of all that the root reaches. -/
theorem search_growth (g : FiniteGraph String) (rootId : String) :
    ∃ component t, g.search growth ⟨[rootId], [rootId], some ⟨KeyMap.empty.insert rootId rootId,
        KeyMap.empty.insert rootId 0, 0⟩⟩ = ⟨component, [], some t⟩ ∧ component.Nodup ∧
      g.Closed component ∧ (∀ id, id ∈ component ↔ g.Reaches rootId id) ∧
      Leveled g rootId component [] t.labels := by
  have hnothing : g.Closed [] := fun x hx => absurd hx List.not_mem_nil
  obtain ⟨⟨component, t, hacc, hexplores, hleveled⟩, hqueue⟩ :=
    FiniteGraph.search_induction (P := Grows g rootId)
      (s := ⟨[rootId], [rootId], some ⟨KeyMap.empty.insert rootId rootId,
        KeyMap.empty.insert rootId 0, 0⟩⟩)
      (fun s current rest hs hqueue => grows_advance hs hqueue)
      ⟨[], _, rfl, .init List.not_mem_nil List.nodup_nil _, .init rootId⟩
  have hvisited := hexplores.visited
  have hclosed := hexplores.closed_visited hqueue hnothing
  have hnodup := hexplores.nodup
  rw [hqueue] at hvisited hleveled
  rw [List.nil_append, List.append_nil] at hvisited
  rw [hvisited] at hclosed hnodup
  refine ⟨component, t, ?_, hnodup, hclosed, fun id => ?_, hleveled⟩
  · exact SearchState.ext hvisited hqueue hacc
  · exact (hexplores.mem_iff hqueue hnothing).trans (and_iff_left List.not_mem_nil)

end

/-- Over every mesh with distinct ids and every root in it. -/
theorem bfsSpanningTree_shortest {mesh : List (MeshNode F)} (h : (ids mesh).Nodup)
    {rootId : String} (hroot : rootId ∈ ids mesh) :
    ∃ tree, bfsSpanningTree mesh rootId = some tree ∧ IsShortestPathTree mesh rootId tree := by
  obtain ⟨node, hnode, rfl⟩ := List.mem_map.mp hroot
  have hfound : nodeMap mesh node.id = some node := (nodeMap_eq_some_iff h).mpr ⟨hnode, rfl⟩
  obtain ⟨component, t, hsearch, hnodup, hclosed, hmem, hleveled⟩ :=
    search_growth (graph mesh) node.id
  have hreached : ∀ id, id ∈ component ↔ Reachable mesh node.id id := fun id => by
    rw [hmem, FiniteGraph.Reaches, link_graph h, Reachable]
  have hlevel : ∀ id d, t.depth id = some d → id ∈ component ∧ t.labels.level id = d := by
    intro id d hd
    have hknown := (hleveled.depth_known id).mp (Option.isSome_iff_exists.mpr ⟨d, hd⟩)
    rw [List.append_nil] at hknown
    exact ⟨hknown, congrArg (·.getD 0) hd⟩
  refine ⟨⟨node.id, t.parent, t.depth, component.length⟩, ?_, rfl, fun id => ?_, fun id => ?_,
    ⟨component, hnodup, hreached, rfl⟩, fun id d hd => ?_, fun id d hd => ?_⟩
  · rw [bfsSpanningTree, hfound, if_neg (by simp), hsearch]
    rfl
  · rw [← hreached, ← List.append_nil component]
    exact hleveled.depth_known id
  · rw [← hreached, ← List.append_nil component]
    exact hleveled.parent_known id
  · obtain ⟨hid, rfl⟩ := hlevel id d hd
    rw [← link_graph h]
    exact ⟨hleveled.walk hid, fun n hwalk =>
      hleveled.level_le ((hreached node.id).mpr .refl) hclosed hwalk⟩
  · obtain ⟨hid, rfl⟩ := hlevel id d hd
    exact hleveled.climb hid

/-- A tree in a mesh with a cycle and a one-way link. -/
theorem bfsSpanningTree_shortest_meshOf :
    let mesh := meshOf [("n1", ["n2", "n3"]), ("n2", ["n4"]), ("n3", ["n1"]), ("n4", ["n1"])]
    "n1" ∈ ids mesh ∧
      ∃ tree, bfsSpanningTree mesh "n1" = some tree ∧ IsShortestPathTree mesh "n1" tree := by
  intro mesh
  have hroot : "n1" ∈ ids mesh := by decide +kernel
  exact ⟨hroot, bfsSpanningTree_shortest (by decide +kernel) hroot⟩

end

/-! ## Healing -/

/-- Neighbors list each other. -/
def Symmetric {F : Type} (mesh : List (MeshNode F)) : Prop :=
  ∀ id other, Linked mesh id other → Linked mesh other id

def DuplicateFree {F : Type} (mesh : List (MeshNode F)) : Prop :=
  ∀ node ∈ mesh, node.neighbors.Nodup

/-- `other` has the nodes of `mesh`, all its links, and good neighbor lists if `mesh` has them. -/
structure Extends {F : Type} (mesh other : List (MeshNode F)) : Prop where
  ids_eq : ids other = ids mesh
  kept : ∀ id neighborId, Linked mesh id neighborId → Linked other id neighborId
  wellFormed : WellFormed mesh → WellFormed other
  symmetric : Symmetric mesh → Symmetric other
  duplicateFree : DuplicateFree mesh → DuplicateFree other

/-- The mesh after all repairs that `self_heal` returns, in the order returned. -/
def healed {F : Type} [F64 F] (fmt : RepairFormat F) (mesh : List (MeshNode F)) :
    List (MeshNode F) :=
  (selfHeal fmt mesh).2.foldl applyRepair mesh

/-- The repaired mesh is connected, no link is lost, and nothing is left to repair. -/
structure Heals {F : Type} [F64 F] (fmt : RepairFormat F) (mesh : List (MeshNode F)) : Prop where
  connected : (detectPartitions (healed fmt mesh)).isConnected = true
  ids_eq : ids (healed fmt mesh) = ids mesh
  kept : ∀ id other, Linked mesh id other → Linked (healed fmt mesh) id other
  symmetric : Symmetric (healed fmt mesh)
  duplicateFree : DuplicateFree mesh → DuplicateFree (healed fmt mesh)
  settled : (selfHeal fmt (healed fmt mesh)).2 = []

/-! ## Applying repairs -/

section

variable {F : Type} {mesh mesh' mesh'' : List (MeshNode F)} {fromNode toNode id other : String}

theorem Extends.refl (mesh : List (MeshNode F)) : Extends mesh mesh :=
  ⟨rfl, fun _ _ => (fun h => h), (fun h => h), (fun h => h), (fun h => h)⟩

theorem Extends.trans (h : Extends mesh mesh') (h' : Extends mesh' mesh'') :
    Extends mesh mesh'' where
  ids_eq := h'.ids_eq.trans h.ids_eq
  kept id other hlink := h'.kept id other (h.kept id other hlink)
  wellFormed hmesh := h'.wellFormed (h.wellFormed hmesh)
  symmetric hmesh := h'.symmetric (h.symmetric hmesh)
  duplicateFree hmesh := h'.duplicateFree (h.duplicateFree hmesh)

theorem findNode_spec {n : MeshNode F} (h : findNode mesh id = some n) : n ∈ mesh ∧ n.id = id :=
  ⟨List.mem_of_find?_eq_some h, by simpa using List.find?_some h⟩

theorem Symmetric.linksLeadBack (h : Symmetric mesh) : LinksLeadBack mesh :=
  fun id other hlink => .single (h id other hlink)

theorem ids_map {g : MeshNode F → MeshNode F} (hg : ∀ n, (g n).id = n.id) :
    ids (mesh.map g) = ids mesh := by
  rw [ids, List.map_map]
  exact List.map_congr_left fun n _ => hg n

theorem linked_map {g : MeshNode F → MeshNode F} (hg : ∀ n, (g n).id = n.id) :
    Linked (mesh.map g) id other ↔ ∃ n ∈ mesh, n.id = id ∧ other ∈ (g n).neighbors := by
  constructor
  · rintro ⟨_, hnode, rfl, hother⟩
    obtain ⟨n, hn, rfl⟩ := List.mem_map.mp hnode
    exact ⟨n, hn, (hg n).symm, hother⟩
  · rintro ⟨n, hn, rfl, hother⟩
    exact ⟨g n, List.mem_map_of_mem hn, hg n, hother⟩

theorem MeshNode.link_id (n : MeshNode F) (neighborId : String) :
    (n.link neighborId).id = n.id := by
  rw [link]
  split_ifs <;> rfl

theorem MeshNode.mem_link {n : MeshNode F} :
    other ∈ (n.link toNode).neighbors ↔ other ∈ n.neighbors ∨ other = toNode := by
  rw [link]
  split_ifs with h
  · exact ⟨.inl, fun hother => hother.elim (fun hold => hold) fun heq => heq ▸ h⟩
  · rw [List.mem_append, List.mem_singleton]

theorem MeshNode.nodup_link {n : MeshNode F} (h : n.neighbors.Nodup) :
    (n.link toNode).neighbors.Nodup := by
  rw [link]
  split_ifs with hold
  · exact h
  · exact List.concat_eq_append ▸ h.concat hold

theorem addLink_eq_map (h : (ids mesh).Nodup) :
    addLink fromNode toNode mesh =
      mesh.map fun n => if n.id = fromNode then n.link toNode else n :=
  updateFirst_eq_map h fromNode

theorem ids_addLink : ids (addLink fromNode toNode mesh) = ids mesh :=
  map_updateFirst fun n => n.link_id toNode

theorem linked_addLink (h : (ids mesh).Nodup) (hfrom : fromNode ∈ ids mesh) :
    Linked (addLink fromNode toNode mesh) id other ↔
      Linked mesh id other ∨ id = fromNode ∧ other = toNode := by
  rw [addLink_eq_map h, linked_map fun n => by split_ifs <;> simp only [MeshNode.link_id]]
  constructor
  · rintro ⟨n, hn, rfl, hother⟩
    split_ifs at hother with hid
    · rcases MeshNode.mem_link.mp hother with hold | rfl
      · exact .inl ⟨n, hn, rfl, hold⟩
      · exact .inr ⟨hid, rfl⟩
    · exact .inl ⟨n, hn, rfl, hother⟩
  · rintro (⟨n, hn, rfl, hother⟩ | ⟨rfl, rfl⟩)
    · refine ⟨n, hn, rfl, ?_⟩
      split_ifs
      · exact MeshNode.mem_link.mpr (.inl hother)
      · exact hother
    · obtain ⟨n, hn, rfl⟩ := List.mem_map.mp hfrom
      exact ⟨n, hn, rfl, by rw [if_pos rfl]; exact MeshNode.mem_link.mpr (.inr rfl)⟩

theorem duplicateFree_addLink (h : (ids mesh).Nodup) (hmesh : DuplicateFree mesh) :
    DuplicateFree (addLink fromNode toNode mesh) := by
  rw [addLink_eq_map h]
  intro node hnode
  obtain ⟨n, hn, rfl⟩ := List.mem_map.mp hnode
  split_ifs
  · exact MeshNode.nodup_link (hmesh n hn)
  · exact hmesh n hn

theorem wellFormed_iff : WellFormed mesh ↔ (ids mesh).Nodup ∧
    ∀ id other, Linked mesh id other → other ∈ ids mesh := by
  constructor
  · exact fun h => ⟨h.distinct, fun id other hlink => (mem_ids_of_linked h hlink).2⟩
  · exact fun h => ⟨h.1, fun node hnode id hid => h.2 node.id id ⟨node, hnode, rfl, hid⟩⟩

/-- The two new links of a repair are each other's reverse. -/
theorem linked_both (h : (ids mesh).Nodup) (hfrom : fromNode ∈ ids mesh)
    (hto : toNode ∈ ids mesh) :
    Linked (addLink toNode fromNode (addLink fromNode toNode mesh)) id other ↔
      Linked mesh id other ∨ id = fromNode ∧ other = toNode ∨ id = toNode ∧ other = fromNode := by
  rw [linked_addLink (by rwa [ids_addLink]) (by rwa [ids_addLink]), linked_addLink h hfrom,
    or_assoc]

theorem extends_addLinks (h : (ids mesh).Nodup) (hfrom : fromNode ∈ ids mesh)
    (hto : toNode ∈ ids mesh) :
    Extends mesh (addLink toNode fromNode (addLink fromNode toNode mesh)) := by
  have hids : ids (addLink toNode fromNode (addLink fromNode toNode mesh)) = ids mesh := by
    rw [ids_addLink, ids_addLink]
  refine ⟨hids, fun id other hlink => (linked_both h hfrom hto).mpr (.inl hlink), fun hmesh => ?_,
    fun hmesh id other hlink => ?_, fun hmesh => ?_⟩
  · refine wellFormed_iff.mpr ⟨by rwa [hids], fun id other hlink => ?_⟩
    rw [hids]
    rcases (linked_both h hfrom hto).mp hlink with hold | ⟨-, rfl⟩ | ⟨-, rfl⟩
    · exact (mem_ids_of_linked hmesh hold).2
    · exact hto
    · exact hfrom
  · rw [linked_both h hfrom hto] at hlink ⊢
    rcases hlink with hold | ⟨rfl, rfl⟩ | ⟨rfl, rfl⟩
    · exact .inl (hmesh id other hold)
    · exact .inr (.inr ⟨rfl, rfl⟩)
    · exact .inr (.inl ⟨rfl, rfl⟩)
  · exact duplicateFree_addLink (by rwa [ids_addLink]) (duplicateFree_addLink h hmesh)

theorem extends_map {g : MeshNode F → MeshNode F} (hid : ∀ n, (g n).id = n.id)
    (hneighbors : ∀ n, (g n).neighbors = n.neighbors) : Extends mesh (mesh.map g) := by
  have hlinked : Linked (mesh.map g) = Linked mesh := by
    funext id other
    rw [linked_map hid]
    simp only [hneighbors, Linked]
  refine ⟨ids_map hid, fun id other hlink => by rwa [hlinked], fun hmesh => ?_,
    fun hmesh => by rwa [Symmetric, hlinked], fun hmesh node hnode => ?_⟩
  · rw [wellFormed_iff, hlinked, ids_map hid]
    exact wellFormed_iff.mp hmesh
  · obtain ⟨n, hn, rfl⟩ := List.mem_map.mp hnode
    rw [hneighbors]
    exact hmesh n hn

theorem extends_applyRepair {repair : RepairAction} (h : (ids mesh).Nodup)
    (hends : repair.fromNode ∈ ids mesh ∧ repair.toNode ∈ ids mesh) :
    Extends mesh (applyRepair mesh repair) := by
  rw [applyRepair]
  cases repair.actionType with
  | addEdge => exact extends_addLinks h hends.1 hends.2
  | promoteRelay =>
    have hmap := updateFirst_eq_map (f := fun n : MeshNode F => { n with role := .relay }) h
      repair.fromNode
    simp only [hmap]
    exact extends_map (fun n => by split_ifs <;> rfl) fun n => by split_ifs <;> rfl
  | reroute => exact .refl mesh

theorem extends_foldl {repairs : List RepairAction} (h : (ids mesh).Nodup)
    (hends : ∀ r ∈ repairs, r.fromNode ∈ ids mesh ∧ r.toNode ∈ ids mesh) :
    Extends mesh (repairs.foldl applyRepair mesh) := by
  induction repairs generalizing mesh with
  | nil => exact .refl mesh
  | cons repair repairs ih =>
    have hstep := extends_applyRepair h (hends repair List.mem_cons_self)
    refine hstep.trans (ih (by rwa [hstep.ids_eq]) fun r hr => ?_)
    rw [hstep.ids_eq]
    exact hends r (List.mem_cons_of_mem repair hr)

/-- Every bridge that is applied is a link of the mesh at the end. -/
theorem linked_foldl {repairs : List RepairAction} (h : (ids mesh).Nodup)
    (hends : ∀ r ∈ repairs, r.fromNode ∈ ids mesh ∧ r.toNode ∈ ids mesh) {repair : RepairAction}
    (hrepair : repair ∈ repairs) (hedge : repair.actionType = .addEdge) :
    Linked (repairs.foldl applyRepair mesh) repair.fromNode repair.toNode := by
  obtain ⟨as, bs, rfl⟩ := List.append_of_mem hrepair
  have hbefore := extends_foldl h fun r hr => hends r (List.mem_append_left _ hr)
  have hdistinct : (ids (as.foldl applyRepair mesh)).Nodup := by rwa [hbefore.ids_eq]
  have hboth := hends repair hrepair
  rw [← hbefore.ids_eq] at hboth
  have hadded : Linked (applyRepair (as.foldl applyRepair mesh) repair) repair.fromNode
      repair.toNode := by
    rw [applyRepair, hedge]
    exact (linked_both hdistinct hboth.1 hboth.2).mpr (.inr (.inl ⟨rfl, rfl⟩))
  have hstep := extends_applyRepair hdistinct hboth
  rw [List.foldl_append, List.foldl_cons]
  refine (extends_foldl (by rwa [hstep.ids_eq]) fun r hr => ?_).kept _ _ hadded
  rw [hstep.ids_eq, hbefore.ids_eq]
  exact hends r (List.mem_append_right _ (List.mem_cons_of_mem repair hr))

end

/-! ## Proposed bridges -/

section

variable {F : Type} [F64 F] {fmt : RepairFormat F} {mesh : List (MeshNode F)} {p : Partition}
  {n : MeshNode F} {repair : RepairAction}

theorem maxByCapacity_mem {nodes : List (MeshNode F)} (h : maxByCapacity nodes = some n) :
    n ∈ nodes := by
  cases nodes with
  | nil => simp [maxByCapacity] at h
  | cons first nodes =>
    obtain rfl := Option.some.inj h
    clear h
    induction nodes generalizing first with
    | nil => exact List.mem_singleton_self first
    | cons next nodes ih =>
      rw [List.foldl_cons]
      split_ifs
      · exact List.cons_subset_cons first (List.subset_cons_self next nodes) (ih first)
      · exact List.mem_cons_of_mem first (ih next)

theorem best_spec (h : best mesh p = some n) : n ∈ mesh ∧ n.id ∈ p.members := by
  obtain ⟨id, hid, hfind⟩ := List.mem_filterMap.mp (maxByCapacity_mem h)
  obtain ⟨hn, rfl⟩ := findNode_spec hfind
  exact ⟨hn, hid⟩

theorem exists_best {id : String} (hid : id ∈ p.members) (hmesh : id ∈ ids mesh) :
    ∃ n, best mesh p = some n := by
  obtain ⟨node, hnode, rfl⟩ := List.mem_map.mp hmesh
  obtain ⟨found, hfound⟩ := Option.isSome_iff_exists.mp
    (List.find?_isSome.mpr ⟨node, hnode, decide_eq_true rfl⟩ :
      (findNode mesh node.id).isSome = true)
  have hmem : found ∈ p.members.filterMap (findNode mesh) :=
    List.mem_filterMap.mpr ⟨node.id, hid, hfound⟩
  rw [best]
  cases hnodes : p.members.filterMap (findNode mesh) with
  | nil => rw [hnodes] at hmem; exact absurd hmem List.not_mem_nil
  | cons first nodes => exact ⟨_, rfl⟩

theorem bridge_spec {partitions : List Partition} {i j : ℕ}
    (h : bridge mesh partitions i j = some repair) :
    repair.fromNode ∈ ids mesh ∧ repair.toNode ∈ ids mesh := by
  simp only [bridge, Option.bind_eq_bind, Option.bind_eq_some_iff, Option.some.injEq] at h
  obtain ⟨pA, -, pB, -, a, ha, b, hb, rfl⟩ := h
  exact ⟨List.mem_map_of_mem (best_spec ha).1, List.mem_map_of_mem (best_spec hb).1⟩

theorem promote_spec {memberId : String} (h : promote fmt mesh p memberId = some repair) :
    repair.fromNode ∈ ids mesh ∧ repair.toNode ∈ ids mesh := by
  simp only [promote, Option.bind_eq_bind, Option.bind_eq_some_iff] at h
  obtain ⟨node, hnode, h⟩ := h
  split_ifs at h
  obtain rfl := Option.some.inj h
  have hid := List.mem_map_of_mem (f := MeshNode.id) (findNode_spec hnode).1
  exact ⟨hid, hid⟩

theorem proposeRepairs_ends {report : PartitionReport}
    (h : repair ∈ proposeRepairs fmt mesh report) :
    repair.fromNode ∈ ids mesh ∧ repair.toNode ∈ ids mesh := by
  rw [proposeRepairs] at h
  split_ifs at h
  · exact absurd h List.not_mem_nil
  rcases List.mem_append.mp h with h | h
  · obtain ⟨i, -, h⟩ := List.mem_flatMap.mp h
    obtain ⟨j, -, h⟩ := List.mem_filterMap.mp h
    exact bridge_spec h
  · obtain ⟨p, -, h⟩ := List.mem_flatMap.mp h
    split_ifs at h
    · obtain ⟨memberId, -, h⟩ := List.mem_filterMap.mp h
      exact promote_spec h
    · exact absurd h List.not_mem_nil

/-- For any two partitions with nodes of the mesh a bridge is proposed. -/
theorem exists_bridge {partitions : List Partition} {i j : ℕ} {pA pB : Partition}
    (hlt : i < j) (hA : partitions[i]? = some pA) (hB : partitions[j]? = some pB) {idA idB : String}
    (hidA : idA ∈ pA.members) (hmeshA : idA ∈ ids mesh) (hidB : idB ∈ pB.members)
    (hmeshB : idB ∈ ids mesh) :
    ∃ r ∈ bridges mesh partitions, r.actionType = .addEdge ∧ r.fromNode ∈ pA.members ∧
      r.toNode ∈ pB.members := by
  obtain ⟨a, ha⟩ := exists_best hidA hmeshA
  obtain ⟨b, hb⟩ := exists_best hidB hmeshB
  obtain ⟨hj, -⟩ := List.getElem?_eq_some_iff.mp hB
  have hbridge : ∃ r, bridge mesh partitions i j = some r ∧ r.actionType = .addEdge ∧
      r.fromNode = a.id ∧ r.toNode = b.id := by
    simp [bridge, hA, hB, ha, hb]
  obtain ⟨r, hr, hedge, hfrom, hto⟩ := hbridge
  refine ⟨r, ?_, hedge, hfrom ▸ (best_spec ha).2, hto ▸ (best_spec hb).2⟩
  refine List.mem_flatMap.mpr ⟨i, List.mem_range.mpr (hlt.trans hj), ?_⟩
  refine List.mem_filterMap.mpr ⟨j, List.mem_range'_1.mpr ⟨hlt, ?_⟩, hr⟩
  omega

end

/-! ## Connecting the mesh -/

section

variable {F : Type} [F64 F] {fmt : RepairFormat F} {mesh : List (MeshNode F)}

theorem extends_healed (h : WellFormed mesh) : Extends mesh (healed fmt mesh) :=
  extends_foldl h.distinct fun _ hr => proposeRepairs_ends hr

theorem together_healed (h : WellFormed mesh) {id other : String}
    (htogether : Together mesh id other) : Together (healed fmt mesh) id other :=
  htogether.mono (extends_healed h).kept

/-- Two partitions are joined by the best node of each. -/
theorem together_of_lt (h : WellFormed mesh) (hmesh : DetectsComponents mesh)
    (hsplit : ¬ (detectPartitions mesh).isConnected = true) {i j : ℕ} {pA pB : Partition}
    (hlt : i < j) (hA : (detectPartitions mesh).partitions[i]? = some pA)
    (hB : (detectPartitions mesh).partitions[j]? = some pB) {idA idB : String}
    (hidA : idA ∈ pA.members) (hidB : idB ∈ pB.members) :
    Together (healed fmt mesh) idA idB := by
  have hmemA : pA.members ∈ detected mesh := List.mem_map_of_mem (List.mem_of_getElem? hA)
  have hmemB : pB.members ∈ detected mesh := List.mem_map_of_mem (List.mem_of_getElem? hB)
  have hmeshA := (hmesh.mem_iff idA).mp (List.mem_flatten_of_mem hmemA hidA)
  have hmeshB := (hmesh.mem_iff idB).mp (List.mem_flatten_of_mem hmemB hidB)
  obtain ⟨r, hr, hedge, hfrom, hto⟩ := exists_bridge hlt hA hB hidA hmeshA hidB hmeshB
  have hproposed : r ∈ (selfHeal fmt mesh).2 := by
    rw [selfHeal, proposeRepairs, if_neg hsplit]
    exact List.mem_append_left _ hr
  have hlinked : Linked (healed fmt mesh) r.fromNode r.toNode :=
    linked_foldl h.distinct (fun _ hr => proposeRepairs_ends hr) hproposed hedge
  have hstart : Together (healed fmt mesh) idA r.fromNode :=
    together_healed h ((hmesh.component _ hmemA idA hidA _).mp hfrom)
  have hend : Together (healed fmt mesh) r.toNode idB :=
    together_healed h ((hmesh.component _ hmemB _ hto idB).mp hidB)
  exact (hstart.trans _ _ _ (.rel _ _ hlinked)).trans _ _ _ hend

theorem together_of_split (h : WellFormed mesh) (hmesh : DetectsComponents mesh)
    (hsplit : ¬ (detectPartitions mesh).isConnected = true) {id other : String}
    (hid : id ∈ ids mesh) (hother : other ∈ ids mesh) : Together (healed fmt mesh) id other := by
  obtain ⟨cA, hcA, hidA⟩ := List.mem_flatten.mp ((hmesh.mem_iff id).mpr hid)
  obtain ⟨cB, hcB, hidB⟩ := List.mem_flatten.mp ((hmesh.mem_iff other).mpr hother)
  obtain ⟨pA, hpA, rfl⟩ := List.mem_map.mp hcA
  obtain ⟨pB, hpB, rfl⟩ := List.mem_map.mp hcB
  obtain ⟨i, hi⟩ := List.mem_iff_getElem?.mp hpA
  obtain ⟨j, hj⟩ := List.mem_iff_getElem?.mp hpB
  rcases lt_trichotomy i j with hlt | rfl | hlt
  · exact together_of_lt h hmesh hsplit hlt hi hj hidA hidB
  · obtain rfl : pA = pB := Option.some.inj (hi.symm.trans hj)
    exact together_healed h ((hmesh.component _ hcA id hidA other).mp hidB)
  · exact (together_of_lt h hmesh hsplit hlt hj hi hidB hidA).symm

end

/-- Over every mesh with distinct ids and mutual neighbors: the proposed repairs connect it. -/
theorem heals {F : Type} [F64 F] (fmt : RepairFormat F) {mesh : List (MeshNode F)}
    (h : WellFormed mesh) (hsymmetric : Symmetric mesh) : Heals fmt mesh := by
  have hextends : Extends mesh (healed fmt mesh) := extends_healed h
  have hmesh := detectsComponents h hsymmetric.linksLeadBack
  have hhealed := detectsComponents (hextends.wellFormed h)
    (hextends.symmetric hsymmetric).linksLeadBack
  have hconnected : (detectPartitions (healed fmt mesh)).isConnected = true := by
    by_cases hsplit : (detectPartitions mesh).isConnected = true
    · have hnothing : healed fmt mesh = mesh := by
        rw [healed, selfHeal, proposeRepairs, if_pos hsplit]
        rfl
      rwa [hnothing]
    · rw [hhealed.connected, hextends.ids_eq]
      exact fun id hid other hother => together_of_split h hmesh hsplit hid hother
  refine ⟨hconnected, hextends.ids_eq, hextends.kept, hextends.symmetric hsymmetric,
    hextends.duplicateFree, ?_⟩
  rw [selfHeal, proposeRepairs, if_pos hconnected]

def islands : List (MeshNode ℚ) := meshOf [("a", ["b"]), ("b", ["a"]), ("c", [])]

/-- A pair of nodes and a single one are bridged. -/
theorem heals_islands : detected islands = [["a", "b"], ["c"]] ∧
    Heals ⟨50, fun capacity => toString capacity.num⟩ islands := by
  refine ⟨by decide +kernel, heals _ ⟨by decide +kernel, by decide +kernel⟩ ?_⟩
  rintro id other ⟨node, hnode, rfl, hneighbor⟩
  simp only [islands, meshOf, addMeshNode, List.foldl_cons, List.foldl_nil, List.nil_append,
    List.cons_append, List.mem_cons, List.not_mem_nil, or_false] at hnode
  rcases hnode with rfl | rfl | rfl
  · obtain rfl := List.mem_singleton.mp hneighbor
    simp [Linked, islands, meshOf, addMeshNode]
  · obtain rfl := List.mem_singleton.mp hneighbor
    simp [Linked, islands, meshOf, addMeshNode]
  · exact absurd hneighbor List.not_mem_nil

end Wardex.Swarm
