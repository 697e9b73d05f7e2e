import Wardex.Lib.KeyMap
import Wardex.Lib.Records
import Wardex.Lib.Search
import Wardex.Policy.Vm

/-! The mesh of a swarm: spanning trees, partitions, and the repairs that bridge them. -/

namespace Wardex.Swarm

open Wardex.Lib Wardex.Policy

inductive MeshRole where
  | leaf
  | relay
  | gateway
  | coordinator
deriving DecidableEq

structure MeshNode (F : Type) where
  id : String
  role : MeshRole
  neighbors : List String
  load : F
  capacity : F

structure SpanningTree where
  root : String
  parent : KeyMap String String
  depth : KeyMap String ℕ
  nodesReached : ℕ

structure Partition where
  partitionId : ℕ
  members : List String
  size : ℕ

structure PartitionReport where
  partitions : List Partition
  isConnected : Bool
  largestPartitionSize : ℕ

inductive RepairType where
  | addEdge
  | promoteRelay
  | reroute
deriving DecidableEq

structure RepairAction where
  actionType : RepairType
  fromNode : String
  toNode : String
  reason : String

/-! ## Searches -/

section

variable {F : Type}

/-- The map is collected from the mesh, and a later node replaces one with its id. -/
def nodeMap (mesh : List (MeshNode F)) (id : String) : Option (MeshNode F) :=
  mesh.reverse.find? fun n => n.id = id

def graph (mesh : List (MeshNode F)) : FiniteGraph String where
  next id := ((nodeMap mesh id).map MeshNode.neighbors).getD []
  bound := mesh.flatMap MeshNode.neighbors
  next_mem id neighborId h := by
    cases hnode : nodeMap mesh id with
    | none => simp [hnode] at h
    | some node =>
      rw [hnode] at h
      exact List.mem_flatMap.mpr ⟨node, List.mem_reverse.mp (List.mem_of_find?_eq_some hnode), h⟩

/-- The maps of a spanning tree that grows, and `current_depth`. -/
structure Growth where
  parent : KeyMap String String
  depth : KeyMap String ℕ
  currentDepth : ℕ

/-- `None` is a panic: the depth of an item taken from the queue is looked up in the map. -/
def growth : SearchActions String (Option Growth) where
  enter current acc :=
    acc.bind fun t => (t.depth current).map fun d => { t with currentDepth := d }
  discover current neighborId acc :=
    acc.map fun t =>
      { t with
        parent := t.parent.insert neighborId current
        depth := t.depth.insert neighborId (t.currentDepth + 1) }

def bfsSpanningTree (mesh : List (MeshNode F)) (rootId : String) : Option SpanningTree :=
  if (nodeMap mesh rootId).isNone then some ⟨rootId, .empty, .empty, 0⟩
  else
    let found := (graph mesh).search growth
      ⟨[rootId], [rootId], some ⟨KeyMap.empty.insert rootId rootId,
        KeyMap.empty.insert rootId 0, 0⟩⟩
    found.acc.map fun t => ⟨rootId, t.parent, t.depth, found.visited.length⟩

/-- One round of the loop over the nodes, with the visited ids and the partitions. -/
def detectFrom (mesh : List (MeshNode F)) (s : List String × List Partition) (node : MeshNode F) :
    List String × List Partition :=
  if node.id ∈ s.1 then s
  else
    let found := (graph mesh).explore s.1 node.id
    (found.visited, s.2 ++ [⟨s.2.length, found.acc, found.acc.length⟩])

def detectPartitions (mesh : List (MeshNode F)) : PartitionReport :=
  let partitions := (mesh.foldl (detectFrom mesh) ([], [])).2
  { partitions := partitions
    isConnected := partitions.length ≤ 1
    largestPartitionSize := ((partitions.map Partition.size).max?).getD 0 }

end

/-! ## Repairs -/

section

variable {F : Type} [F64 F]

/-- The literal `50.0` and the format `{:.0}`. -/
structure RepairFormat (F : Type) where
  fifty : F
  whole : F → String

/-- `max_by` on the capacities: the last of the largest, where those that do not compare are
equal. -/
def maxByCapacity : List (MeshNode F) → Option (MeshNode F)
  | [] => none
  | n :: nodes =>
    some (nodes.foldl (fun best n => if F64.gt best.capacity n.capacity then best else n) n)

def findNode (mesh : List (MeshNode F)) (id : String) : Option (MeshNode F) :=
  mesh.find? fun n => n.id = id

def best (mesh : List (MeshNode F)) (p : Partition) : Option (MeshNode F) :=
  maxByCapacity (p.members.filterMap (findNode mesh))

def bridge (mesh : List (MeshNode F)) (partitions : List Partition) (i j : ℕ) :
    Option RepairAction := do
  let pA ← partitions[i]?
  let pB ← partitions[j]?
  let a ← best mesh pA
  let b ← best mesh pB
  some
    { actionType := .addEdge
      fromNode := a.id
      toNode := b.id
      reason := "Bridge partition " ++ toString i ++ " (" ++ toString pA.size ++
        " nodes) ↔ partition " ++ toString j ++ " (" ++ toString pB.size ++ " nodes)" }

def bridges (mesh : List (MeshNode F)) (partitions : List Partition) : List RepairAction :=
  (List.range partitions.length).flatMap fun i =>
    (List.range' (i + 1) (partitions.length - (i + 1))).filterMap (bridge mesh partitions i)

def promote (fmt : RepairFormat F) (mesh : List (MeshNode F)) (p : Partition)
    (memberId : String) : Option RepairAction := do
  let node ← findNode mesh memberId
  if node.role = .leaf ∧ F64.gt node.capacity fmt.fifty then
    some
      { actionType := .promoteRelay
        fromNode := node.id
        toNode := node.id
        reason := "Promote leaf in small partition " ++ toString p.partitionId ++
          " (capacity=" ++ fmt.whole node.capacity ++ ") to relay" }
  else none

def promotions (fmt : RepairFormat F) (mesh : List (MeshNode F)) (partitions : List Partition) :
    List RepairAction :=
  partitions.flatMap fun p =>
    if p.size ≤ 2 then p.members.filterMap (promote fmt mesh p) else []

def proposeRepairs (fmt : RepairFormat F) (mesh : List (MeshNode F)) (report : PartitionReport) :
    List RepairAction :=
  if report.isConnected then []
  else bridges mesh report.partitions ++ promotions fmt mesh report.partitions

def selfHeal (fmt : RepairFormat F) (mesh : List (MeshNode F)) :
    PartitionReport × List RepairAction :=
  let report := detectPartitions mesh
  (report, proposeRepairs fmt mesh report)

end

section

variable {F : Type}

def MeshNode.link (n : MeshNode F) (neighborId : String) : MeshNode F :=
  if neighborId ∈ n.neighbors then n else { n with neighbors := n.neighbors ++ [neighborId] }

def addLink (fromNode toNode : String) (mesh : List (MeshNode F)) : List (MeshNode F) :=
  updateFirst (fun n => n.id = fromNode) (fun n => n.link toNode) mesh

def applyRepair (mesh : List (MeshNode F)) (repair : RepairAction) : List (MeshNode F) :=
  match repair.actionType with
  | .addEdge =>
    addLink repair.toNode repair.fromNode (addLink repair.fromNode repair.toNode mesh)
  | .promoteRelay =>
    updateFirst (fun n => n.id = repair.fromNode) (fun n => { n with role := .relay }) mesh
  | .reroute => mesh

def addMeshNode (mesh : List (MeshNode F)) (id : String) (neighbors : List String)
    (capacity load : F) : List (MeshNode F) :=
  mesh ++ [⟨id, .leaf, neighbors, load, capacity⟩]

end

/-! ## Links between ids -/

section

variable {F : Type} {mesh : List (MeshNode F)}

def ids (mesh : List (MeshNode F)) : List String := mesh.map MeshNode.id

/-- A node with the first id lists the second one. -/
def Linked (mesh : List (MeshNode F)) (id neighborId : String) : Prop :=
  ∃ node ∈ mesh, node.id = id ∧ neighborId ∈ node.neighbors

/-- The ids are distinct, and the neighbors are ids of the mesh. -/
structure WellFormed (mesh : List (MeshNode F)) : Prop where
  distinct : (ids mesh).Nodup
  named : ∀ node ∈ mesh, ∀ id ∈ node.neighbors, id ∈ ids mesh

theorem eq_of_id_eq (h : (ids mesh).Nodup) {m n : MeshNode F} (hm : m ∈ mesh) (hn : n ∈ mesh)
    (hid : m.id = n.id) : m = n := List.inj_on_of_nodup_map h hm hn hid

theorem nodeMap_eq_some_iff (h : (ids mesh).Nodup) {id : String} {node : MeshNode F} :
    nodeMap mesh id = some node ↔ node ∈ mesh ∧ node.id = id := by
  constructor
  · intro hnode
    exact ⟨List.mem_reverse.mp (List.mem_of_find?_eq_some hnode),
      by simpa using List.find?_some hnode⟩
  · rintro ⟨hnode, rfl⟩
    cases hfind : nodeMap mesh node.id with
    | none =>
      have hnone := List.find?_eq_none.mp hfind node (List.mem_reverse.mpr hnode)
      exact absurd (decide_eq_true rfl) hnone
    | some other =>
      have hother := List.mem_reverse.mp (List.mem_of_find?_eq_some hfind)
      rw [eq_of_id_eq h hother hnode (by simpa using List.find?_some hfind)]

theorem link_graph (h : (ids mesh).Nodup) : (graph mesh).Link = Linked mesh := by
  funext id neighborId
  refine propext ⟨fun hlink => ?_, ?_⟩
  · cases hnode : nodeMap mesh id with
    | none => simp [FiniteGraph.Link, graph, hnode] at hlink
    | some node =>
      obtain ⟨hmem, hid⟩ := (nodeMap_eq_some_iff h).mp hnode
      exact ⟨node, hmem, hid, by simpa [FiniteGraph.Link, graph, hnode] using hlink⟩
  · rintro ⟨node, hmem, rfl, hneighbor⟩
    have hnode := (nodeMap_eq_some_iff h).mpr ⟨hmem, rfl⟩
    simpa [FiniteGraph.Link, graph, hnode] using hneighbor

theorem mem_ids_of_linked (h : WellFormed mesh) {id neighborId : String}
    (hlink : Linked mesh id neighborId) : id ∈ ids mesh ∧ neighborId ∈ ids mesh := by
  obtain ⟨node, hmem, rfl, hneighbor⟩ := hlink
  exact ⟨List.mem_map_of_mem hmem, h.named node hmem neighborId hneighbor⟩

/-- The partitions are those that a sweep of the ids finds. -/
theorem detectFrom_members (nodes : List (MeshNode F)) (s : List String × List Partition) :
    ((nodes.foldl (detectFrom mesh) s).1,
        (nodes.foldl (detectFrom mesh) s).2.map Partition.members) =
      (ids nodes).foldl (graph mesh).sweep (s.1, s.2.map Partition.members) := by
  induction nodes generalizing s with
  | nil => rfl
  | cons node nodes ih =>
    have hround : ((detectFrom mesh s node).1, (detectFrom mesh s node).2.map Partition.members) =
        (graph mesh).sweep (s.1, s.2.map Partition.members) node.id := by
      rw [detectFrom, FiniteGraph.sweep]
      split_ifs <;> simp
    rw [List.foldl_cons, ih, hround]
    rfl

end

end Wardex.Swarm
