import Mathlib.Algebra.Order.Field.Rat
import Wardex.Swarm.Mesh

/-! What the detection of partitions finds: in a mesh with one-way links the partitions depend on
the order of the nodes. -/

namespace Wardex.Swarm

open Wardex.Lib

variable {F : Type}

def Reachable (mesh : List (MeshNode F)) : String → String → Prop :=
  Relation.ReflTransGen (Linked mesh)

/-- The ids are in the same component of the undirected graph of the links. -/
def Together (mesh : List (MeshNode F)) : String → String → Prop :=
  Relation.EqvGen (Linked mesh)

def detected (mesh : List (MeshNode F)) : List (List String) :=
  (detectPartitions mesh).partitions.map Partition.members

def detectedSets (mesh : List (MeshNode F)) : Set (Set String) :=
  {c | ∃ members ∈ detected mesh, c = {id | id ∈ members}}

/-- Each node is in one partition, which is its component, and the mesh is connected if it has at
most one. -/
structure DetectsComponents (mesh : List (MeshNode F)) : Prop where
  once : (detected mesh).flatten.Nodup
  mem_iff : ∀ id, id ∈ (detected mesh).flatten ↔ id ∈ ids mesh
  nonempty : ∀ members ∈ detected mesh, members ≠ []
  component : ∀ members ∈ detected mesh, ∀ id ∈ members, ∀ other,
    other ∈ members ↔ Together mesh id other
  connected : (detectPartitions mesh).isConnected = true ↔
    ∀ id ∈ ids mesh, ∀ other ∈ ids mesh, Together mesh id other

/-- The components are detected, and are the same ones in every order of the nodes. -/
def DetectsExactly (mesh : List (MeshNode F)) : Prop :=
  ∀ mesh' : List (MeshNode F), mesh'.Perm mesh →
    DetectsComponents mesh' ∧ detectedSets mesh' = detectedSets mesh

/-- Every link can be gone back, along other links if need be. -/
def LinksLeadBack (mesh : List (MeshNode F)) : Prop :=
  ∀ id neighborId, Linked mesh id neighborId → Reachable mesh neighborId id

section

variable {mesh mesh' : List (MeshNode F)} {members : List String} {id other : String}

theorem linked_perm (h : mesh'.Perm mesh) : Linked mesh' = Linked mesh := by
  funext id other
  simp only [Linked, h.mem_iff]

theorem mem_ids_perm (h : mesh'.Perm mesh) : id ∈ ids mesh' ↔ id ∈ ids mesh :=
  (h.map MeshNode.id).mem_iff

theorem WellFormed.perm (h : WellFormed mesh) (hperm : mesh'.Perm mesh) : WellFormed mesh' where
  distinct := (hperm.map MeshNode.id).nodup_iff.mpr h.distinct
  named node hnode id hid :=
    (mem_ids_perm hperm).mpr (h.named node (hperm.mem_iff.mp hnode) id hid)

theorem swept_detected (mesh : List (MeshNode F)) :
    (graph mesh).Swept (ids mesh) ((detected mesh).flatten, detected mesh) := by
  have hrounds : ((mesh.foldl (detectFrom mesh) ([], [])).1, detected mesh) = _ :=
    detectFrom_members mesh ([], [])
  have hswept : (graph mesh).Swept (ids mesh) (_, detected mesh) :=
    hrounds ▸ FiniteGraph.swept_foldl (ids mesh)
  rwa [← hswept.flatten] at hswept

/-- The partitions have no other members than the nodes. -/
theorem mem_detected_iff (h : WellFormed mesh) : id ∈ (detected mesh).flatten ↔ id ∈ ids mesh := by
  refine ⟨fun hid => ?_, fun hid => (swept_detected mesh).subset hid⟩
  obtain ⟨members, hmembers, hid⟩ := List.mem_flatten.mp hid
  obtain ⟨earlier, -, skipped, root, rest, hids, -, -, hmem⟩ :=
    (swept_detected mesh).exists_found hmembers
  have hclosed : (graph mesh).Closed (ids mesh) := fun x _ y hlink => by
    have hlinked : (graph mesh).Link x y := hlink
    rw [link_graph h.distinct] at hlinked
    exact (mem_ids_of_linked h hlinked).2
  exact hclosed.mem_of_reaches ((hmem id).mp hid).1 (by rw [hids]; simp)

theorem detected_ne_nil (hmembers : members ∈ detected mesh) : members ≠ [] := by
  obtain ⟨earlier, hfound⟩ := (swept_detected mesh).exists_found hmembers
  exact hfound.ne_nil

/-- There is at most one partition if and only if any two nodes are in the same one. -/
theorem isConnected_iff (mesh : List (MeshNode F)) :
    (detectPartitions mesh).isConnected = true ↔
      ∀ c ∈ detected mesh, ∀ d ∈ detected mesh, ∃ id, id ∈ c ∧ id ∈ d := by
  have hlength : (detectPartitions mesh).isConnected = true ↔ (detected mesh).length ≤ 1 := by
    rw [detected, List.length_map]
    exact decide_eq_true_iff
  rw [hlength]
  have hnodup := (swept_detected mesh).nodup
  have hnonempty : ∀ c ∈ detected mesh, c ≠ [] := fun c hc => detected_ne_nil hc
  match hdetected : detected mesh with
  | [] => simp
  | [c] =>
    rw [hdetected] at hnonempty
    obtain ⟨id, hid⟩ := List.exists_mem_of_ne_nil c (hnonempty c (by simp))
    simpa using ⟨id, hid⟩
  | c :: d :: rest =>
    refine iff_of_false (by simp) fun hall => ?_
    obtain ⟨id, hc, hd⟩ := hall c (by simp) d (by simp)
    rw [hdetected, List.flatten_cons, List.flatten_cons] at hnodup
    exact (List.nodup_append.mp hnodup).2.2 id hc id (List.mem_append_left _ hd) rfl

theorem detectsComponents (h : WellFormed mesh) (hback : LinksLeadBack mesh) :
    DetectsComponents mesh := by
  have hcomponent : ∀ members ∈ detected mesh, ∀ id ∈ members, ∀ other,
      other ∈ members ↔ Together mesh id other := by
    intro members hmembers id hid other
    obtain ⟨earlier, hfound⟩ := (swept_detected mesh).exists_found hmembers
    have hconnected := hfound.mem_iff_connected (y := other)
      (by rw [FiniteGraph.Reaches, link_graph h.distinct]; exact hback) hid
    rwa [FiniteGraph.Connected, link_graph h.distinct] at hconnected
  refine ⟨(swept_detected mesh).nodup, fun id => mem_detected_iff h, fun members => detected_ne_nil,
    hcomponent, (isConnected_iff mesh).trans ⟨fun hmeet id hid other hother => ?_,
      fun htogether c hc d hd => ?_⟩⟩
  · obtain ⟨c, hc, hidc⟩ := List.mem_flatten.mp ((mem_detected_iff h).mpr hid)
    obtain ⟨d, hd, hotherd⟩ := List.mem_flatten.mp ((mem_detected_iff h).mpr hother)
    obtain ⟨shared, hsharedc, hsharedd⟩ := hmeet c hc d hd
    exact ((hcomponent c hc id hidc shared).mp hsharedc).trans _ _ _
      ((hcomponent d hd shared hsharedd other).mp hotherd)
  · obtain ⟨id, hid⟩ := List.exists_mem_of_ne_nil c (detected_ne_nil hc)
    obtain ⟨other, hother⟩ := List.exists_mem_of_ne_nil d (detected_ne_nil hd)
    have hidmesh := (mem_detected_iff h).mp (List.mem_flatten_of_mem hc hid)
    have hothermesh := (mem_detected_iff h).mp (List.mem_flatten_of_mem hd hother)
    exact ⟨id, hid, (hcomponent d hd other hother id).mpr
      ((htogether id hidmesh other hothermesh).symm)⟩

theorem DetectsComponents.sets_eq (h : DetectsComponents mesh) :
    detectedSets mesh = {c | ∃ id ∈ ids mesh, c = {other | Together mesh id other}} := by
  ext c
  constructor
  · rintro ⟨members, hmembers, rfl⟩
    obtain ⟨id, hid⟩ := List.exists_mem_of_ne_nil members (h.nonempty members hmembers)
    exact ⟨id, (h.mem_iff id).mp (List.mem_flatten_of_mem hmembers hid),
      Set.ext (h.component members hmembers id hid)⟩
  · rintro ⟨id, hid, rfl⟩
    obtain ⟨members, hmembers, hid⟩ := List.mem_flatten.mp ((h.mem_iff id).mpr hid)
    exact ⟨members, hmembers, (Set.ext (h.component members hmembers id hid)).symm⟩

theorem sets_perm (hperm : mesh'.Perm mesh) (h : DetectsComponents mesh)
    (h' : DetectsComponents mesh') : detectedSets mesh' = detectedSets mesh := by
  rw [h.sets_eq, h'.sets_eq]
  simp only [mem_ids_perm hperm, Together, linked_perm hperm]

/-- The partition detected first is what the first node reaches. -/
theorem exists_detected_first (h : WellFormed mesh) {node : MeshNode F}
    {rest : List (MeshNode F)} (hmesh : mesh = node :: rest) :
    ∃ members ∈ detected mesh, ∀ other, other ∈ members ↔ Reachable mesh node.id other := by
  have hswept := swept_detected mesh
  have hids : ids mesh = node.id :: ids rest := by rw [hmesh]; rfl
  rw [hids] at hswept
  obtain ⟨members, hmembers, hmem⟩ := hswept.exists_head
  refine ⟨members, hmembers, fun other => ?_⟩
  rw [hmem, FiniteGraph.Reaches, link_graph h.distinct, Reachable]

end

/-- In every mesh: the components of the undirected graph are detected, in every order of the
nodes, if and only if every link can be gone back along links. -/
theorem detectsExactly_iff {mesh : List (MeshNode F)} (h : WellFormed mesh) :
    DetectsExactly mesh ↔ LinksLeadBack mesh := by
  constructor
  · intro hexact id neighborId hlink
    -- the search that starts at the target finds what the target reaches
    obtain ⟨node, hnode, rfl⟩ := List.mem_map.mp (mem_ids_of_linked h hlink).2
    obtain ⟨as, bs, rfl⟩ := List.append_of_mem hnode
    have hperm : (node :: (as ++ bs)).Perm (as ++ node :: bs) := List.perm_middle.symm
    obtain ⟨members, hmembers, hmem⟩ := exists_detected_first (h.perm hperm) rfl
    have hstart : node.id ∈ members := (hmem node.id).mpr .refl
    have hid := ((hexact _ hperm).1.component members hmembers node.id hstart id).mpr
      (by rw [Together, linked_perm hperm]; exact .symm _ _ (.rel _ _ hlink))
    have hpath := (hmem id).mp hid
    rwa [Reachable, linked_perm hperm] at hpath
  · intro hback mesh' hperm
    have hback' : LinksLeadBack mesh' := by
      rw [LinksLeadBack, Reachable, linked_perm hperm]
      exact hback
    have hdetects := detectsComponents (h.perm hperm) hback'
    exact ⟨hdetects, sets_perm hperm (detectsComponents h hback) hdetects⟩

def meshOf (links : List (String × List String)) : List (MeshNode ℚ) :=
  links.foldl (fun mesh p => addMeshNode mesh p.1 p.2 100 0) []

def ring : List (MeshNode ℚ) := meshOf [("a", ["b"]), ("b", ["c"]), ("c", ["a"])]

/-- The one-way links of a ring lead back around it. -/
theorem detectsExactly_ring : DetectsExactly ring := by
  refine (detectsExactly_iff ⟨by decide +kernel, by decide +kernel⟩).mpr ?_
  have hab : Linked ring "a" "b" := by simp [Linked, ring, meshOf, addMeshNode]
  have hbc : Linked ring "b" "c" := by simp [Linked, ring, meshOf, addMeshNode]
  have hca : Linked ring "c" "a" := by simp [Linked, ring, meshOf, addMeshNode]
  rintro id neighborId ⟨node, hnode, rfl, hneighbor⟩
  simp only [ring, meshOf, addMeshNode, List.foldl_cons, List.foldl_nil, List.nil_append,
    List.cons_append, List.mem_cons, List.not_mem_nil, or_false] at hnode
  rcases hnode with rfl | rfl | rfl
  · obtain rfl := List.mem_singleton.mp hneighbor
    exact .tail (.single hbc) hca
  · obtain rfl := List.mem_singleton.mp hneighbor
    exact .tail (.single hca) hab
  · obtain rfl := List.mem_singleton.mp hneighbor
    exact .tail (.single hab) hbc

/-- A node that nobody lists: it is found with its neighbor only if the search starts there. -/
theorem one_way_split :
    let mesh := meshOf [("a", []), ("b", ["a"])]
    WellFormed mesh ∧ detected mesh = [["a"], ["b"]] ∧ detected mesh.reverse = [["b", "a"]] ∧
      ¬ DetectsExactly mesh := by
  intro mesh
  have hsplit : detected mesh = [["a"], ["b"]] := by decide +kernel
  refine ⟨⟨by decide +kernel, by decide +kernel⟩, hsplit, by decide +kernel, fun hexact => ?_⟩
  have htogether : Together mesh "a" "b" :=
    .symm _ _ (.rel _ _ (by simp [Linked, mesh, meshOf, addMeshNode]))
  have hmem := ((hexact mesh (.refl _)).1.component ["a"] (by simp [hsplit]) "a" (by simp)
    "b").mpr htogether
  exact absurd hmem (by decide)

end Wardex.Swarm
