import Wardex.Lib.HashTable
import Mathlib.Data.List.Forall2

/-! The topology of the network and the actions proposed for the edges that failed.  The edges are
undirected and stand in a list, so that two nodes may be joined several times. -/

namespace Wardex.Enforcement

open Wardex.Lib

structure NetworkNode where
  id : String
  status : String
  role : String

structure NetworkEdge where
  fromNode : String
  toNode : String
  latencyMs : Nat
  bandwidthKbps : Nat
  healthy : Bool

structure HealingAction where
  actionType : String
  affectedNodes : List String
  detail : String
deriving DecidableEq

structure NetworkTopology where
  nodes : List NetworkNode
  edges : List NetworkEdge

namespace NetworkEdge

/-- The other end of an edge at `id`. -/
def neighbor (e : NetworkEdge) (id : String) : Option String :=
  if e.fromNode = id then some e.toNode
  else if e.toNode = id then some e.fromNode
  else none

def failed (e : NetworkEdge) : Bool := !e.healthy || e.latencyMs > 5000

def Usable (e : NetworkEdge) : Prop := e.healthy = true ∧ e.latencyMs ≤ 5000

def Joins (e : NetworkEdge) (a b : String) : Prop :=
  (e.fromNode = a ∧ e.toNode = b) ∨ (e.fromNode = b ∧ e.toNode = a)

variable {e : NetworkEdge} {a b : String}

theorem failed_iff : e.failed = true ↔ ¬ e.Usable := by
  unfold failed Usable
  rw [Bool.or_eq_true, Bool.not_eq_true', decide_eq_true_eq, not_and_or, Bool.not_eq_true, not_le]

theorem neighbor_eq_some_iff : e.neighbor a = some b ↔ e.Joins a b := by
  unfold neighbor Joins
  split_ifs with hfrom hto
  · rw [Option.some_inj]
    constructor
    · exact fun h => .inl ⟨hfrom, h⟩
    · rintro (⟨-, h⟩ | ⟨h, h'⟩)
      · exact h
      · exact h'.trans (hfrom.symm.trans h)
  · rw [Option.some_inj]
    constructor
    · exact fun h => .inr ⟨h, hto⟩
    · rintro (⟨h, -⟩ | ⟨h, -⟩)
      · exact absurd h hfrom
      · exact h
  · exact iff_of_false nofun fun h => h.elim (fun h => hfrom h.1) fun h => hto h.2

theorem Joins.symm (h : e.Joins a b) : e.Joins b a := Or.symm h

end NetworkEdge

namespace NetworkTopology

def new : NetworkTopology := ⟨[], []⟩

def addNode (t : NetworkTopology) (id role : String) : NetworkTopology :=
  { t with nodes := t.nodes ++ [{ id := id, status := "healthy", role := role }] }

def addEdge (t : NetworkTopology) (fromNode toNode : String) (latencyMs bandwidthKbps : Nat) :
    NetworkTopology :=
  { t with edges := t.edges ++ [⟨fromNode, toNode, latencyMs, bandwidthKbps, true⟩] }

def markEdgeUnhealthy (t : NetworkTopology) (fromNode toNode : String) : NetworkTopology :=
  { t with
    edges := t.edges.map fun e =>
      if (e.fromNode = fromNode ∧ e.toNode = toNode) ∨ (e.fromNode = toNode ∧ e.toNode = fromNode)
      then { e with healthy := false }
      else e }

/-- The other ends of the healthy edges at `id`, in the order of the edges. -/
def neighbors (t : NetworkTopology) (id : String) : List String :=
  (t.edges.filter (·.healthy)).filterMap (·.neighbor id)

def findAlternativePath (t : NetworkTopology) (fromNode toNode : String) : Option String :=
  (t.neighbors fromNode).find? fun n => n != toNode && (t.neighbors toNode).contains n

/-- The loop body of `detect_and_heal` for a failed edge. -/
def healEdge (t : NetworkTopology) (e : NetworkEdge) : HealingAction :=
  match t.findAlternativePath e.fromNode e.toNode with
  | some via => {
      actionType := "reroute"
      affectedNodes := [e.fromNode, via, e.toNode]
      detail := "reroute " ++ e.fromNode ++ " → " ++ e.toNode ++ " via " ++ via ++
        " (original edge unhealthy)" }
  | none => {
      actionType := "isolate_and_alert"
      affectedNodes := [e.fromNode, e.toNode]
      detail := "no alternative path for " ++ e.fromNode ++ " → " ++ e.toNode ++
        "; isolating and alerting fleet" }

def countNode (counts : HashTable String Nat) (id : String) : HashTable String Nat :=
  counts.insert id ((counts.lookup id).getD 0 + 1)

def nodeLoad (t : NetworkTopology) : HashTable String Nat :=
  t.edges.foldl (fun counts e =>
    if e.healthy then countNode (countNode counts e.fromNode) e.toNode else counts) ∅

def loadAction (id : String) (count : Nat) : Option HealingAction :=
  if count > 8 then
    some {
      actionType := "load_balance"
      affectedNodes := [id]
      detail := "node " ++ id ++ " has " ++ toString count ++ " connections; redistributing load" }
  else none

def detectAndHeal (t : NetworkTopology) (order : HashTable.IterationOrder String Nat) :
    List HealingAction :=
  (t.edges.filter (·.failed)).map t.healEdge ++
    (order.arrange t.nodeLoad).entries.filterMap fun entry => loadAction entry.1 entry.2

/-! ### Edges between two nodes -/

def UsableBetween (t : NetworkTopology) (a b : String) : Prop :=
  ∃ e ∈ t.edges, e.Usable ∧ e.Joins a b

def HealthyBetween (t : NetworkTopology) (a b : String) : Prop :=
  ∃ e ∈ t.edges, e.healthy = true ∧ e.Joins a b

/-- The edge leads from `a` to `n`, from where a healthy edge leads on to `b`; only `b` itself is
left out. -/
def DetourOver (t : NetworkTopology) (a b : String) (e : NetworkEdge) (n : String) : Prop :=
  e.healthy = true ∧ e.Joins a n ∧ n ≠ b ∧ t.HealthyBetween b n

/-- The first edge of the list that starts a detour leads to `n`. -/
def FirstDetour (t : NetworkTopology) (a b n : String) : Prop :=
  ∃ pre e post, t.edges = pre ++ e :: post ∧ t.DetourOver a b e n ∧
    ∀ earlier ∈ pre, ∀ m, ¬ t.DetourOver a b earlier m

variable {t : NetworkTopology} {a b n : String}

theorem UsableBetween.symm (h : t.UsableBetween a b) : t.UsableBetween b a := by
  obtain ⟨e, he, husable, hjoins⟩ := h
  exact ⟨e, he, husable, hjoins.symm⟩

theorem UsableBetween.healthy (h : t.UsableBetween a b) : t.HealthyBetween a b := by
  obtain ⟨e, he, husable, hjoins⟩ := h
  exact ⟨e, he, husable.1, hjoins⟩

theorem mem_neighbors : n ∈ t.neighbors a ↔ t.HealthyBetween a n := by
  simp only [neighbors, List.mem_filterMap, List.mem_filter, NetworkEdge.neighbor_eq_some_iff,
    HealthyBetween, and_assoc]

/-- The test that the search for an alternative makes at an edge. -/
theorem detourOver_iff {e : NetworkEdge} :
    t.DetourOver a b e n ↔ e.healthy = true ∧ e.neighbor a = some n ∧
      (n != b && (t.neighbors b).contains n) = true := by
  rw [NetworkEdge.neighbor_eq_some_iff, Bool.and_eq_true, bne_iff_ne, List.contains_iff_mem,
    mem_neighbors]
  rfl

theorem findAlternativePath_eq :
    t.findAlternativePath a b = (t.edges.find? fun e =>
      e.healthy && (e.neighbor a).any fun n => n != b && (t.neighbors b).contains n).bind
        (·.neighbor a) := by
  rw [findAlternativePath, show t.neighbors a =
    (t.edges.filter (·.healthy)).filterMap (·.neighbor a) from rfl, List.find?_filterMap,
    List.find?_filter]
  simp only [Bool.decide_and, Bool.decide_eq_true]

theorem any_detour_iff {e : NetworkEdge} :
    (e.healthy && (e.neighbor a).any fun n => n != b && (t.neighbors b).contains n) = true ↔
      ∃ n, t.DetourOver a b e n := by
  simp only [detourOver_iff, Bool.and_eq_true, Option.any_eq_true]
  constructor
  · rintro ⟨hhealthy, n, hn, htest⟩
    exact ⟨n, hhealthy, hn, htest⟩
  · rintro ⟨n, hhealthy, hn, htest⟩
    exact ⟨hhealthy, n, hn, htest⟩

theorem findAlternativePath_eq_some_iff :
    t.findAlternativePath a b = some n ↔ t.FirstDetour a b n := by
  rw [findAlternativePath_eq, Option.bind_eq_some_iff]
  simp only [List.find?_eq_some_iff_append, any_detour_iff, Bool.not_eq_true']
  constructor
  · rintro ⟨e, ⟨⟨m, hdetour⟩, pre, post, hedges, hpre⟩, hn⟩
    obtain rfl : m = n := Option.some.inj ((detourOver_iff.mp hdetour).2.1.symm.trans hn)
    refine ⟨pre, e, post, hedges, hdetour, fun earlier hearlier k hk => ?_⟩
    have hnot := hpre earlier hearlier
    rw [any_detour_iff.mpr ⟨k, hk⟩] at hnot
    exact nomatch hnot
  · rintro ⟨pre, e, post, hedges, hdetour, hpre⟩
    refine ⟨e, ⟨⟨n, hdetour⟩, pre, post, hedges, fun earlier hearlier => ?_⟩,
      (detourOver_iff.mp hdetour).2.1⟩
    rw [Bool.eq_false_iff]
    intro hany
    obtain ⟨m, hm⟩ := any_detour_iff.mp hany
    exact hpre earlier hearlier m hm

/-- Where no alternative is found, no node is joined to both ends by healthy edges. -/
theorem findAlternativePath_eq_none_iff :
    t.findAlternativePath a b = none ↔
      ∀ n, n ≠ b → t.HealthyBetween a n → ¬ t.HealthyBetween b n := by
  simp only [findAlternativePath, List.find?_eq_none, mem_neighbors, Bool.and_eq_true, bne_iff_ne,
    List.contains_iff_mem, not_and]
  constructor
  · exact fun h n hne hbetween => h n hbetween hne
  · exact fun h n hbetween hne => h n hne hbetween

theorem healEdge_of_some {e : NetworkEdge}
    (h : t.findAlternativePath e.fromNode e.toNode = some n) :
    (t.healEdge e).actionType = "reroute" ∧
      (t.healEdge e).affectedNodes = [e.fromNode, n, e.toNode] := by
  rw [healEdge, h]
  exact ⟨rfl, rfl⟩

theorem healEdge_of_none {e : NetworkEdge} (h : t.findAlternativePath e.fromNode e.toNode = none) :
    (t.healEdge e).actionType = "isolate_and_alert" ∧
      (t.healEdge e).affectedNodes = [e.fromNode, e.toNode] := by
  rw [healEdge, h]
  exact ⟨rfl, rfl⟩

end NetworkTopology

/-! ### Sound decisions -/

/-- The actions that answer a failed edge. -/
def HealingAction.answersEdge (action : HealingAction) : Bool :=
  action.actionType == "reroute" || action.actionType == "isolate_and_alert"

/-- The action reroutes or isolates the ends of the edge. -/
def HealingAction.Answers (e : NetworkEdge) (action : HealingAction) : Prop :=
  (action.actionType = "reroute" ∧ ∃ via, action.affectedNodes = [e.fromNode, via, e.toNode]) ∨
    (action.actionType = "isolate_and_alert" ∧ action.affectedNodes = [e.fromNode, e.toNode])

structure HealingSound (t : NetworkTopology) (actions : List HealingAction) : Prop where
  one_each : List.Forall₂ HealingAction.Answers (t.edges.filter (·.failed))
    (actions.filter (·.answersEdge))
  reroute : ∀ action ∈ actions, action.actionType = "reroute" →
    ∀ a via b, action.affectedNodes = [a, via, b] →
      via ≠ a ∧ via ≠ b ∧ t.UsableBetween a via ∧ t.UsableBetween via b
  isolate : ∀ action ∈ actions, action.actionType = "isolate_and_alert" →
    ∀ a b, action.affectedNodes = [a, b] →
      ¬ t.UsableBetween a b ∧ ∀ v, ¬ (t.UsableBetween a v ∧ t.UsableBetween v b)

/-- The first healthy detour around the edge leaves its start and is usable, and where there is
none, no usable edge runs beside it. -/
structure NetworkTopology.Healable (t : NetworkTopology) (e : NetworkEdge) : Prop where
  detour : ∀ n, t.FirstDetour e.fromNode e.toNode n →
    n ≠ e.fromNode ∧ t.UsableBetween e.fromNode n ∧ t.UsableBetween n e.toNode
  beside : (∀ n, n ≠ e.toNode → t.HealthyBetween e.fromNode n → ¬ t.HealthyBetween e.toNode n) →
    ¬ t.UsableBetween e.fromNode e.toNode

section

variable {t : NetworkTopology} {e : NetworkEdge} {action : HealingAction}
  {order : HashTable.IterationOrder String Nat}

theorem healEdge_answers : HealingAction.Answers e (t.healEdge e) := by
  cases h : t.findAlternativePath e.fromNode e.toNode with
  | some via =>
    obtain ⟨htype, hnodes⟩ := NetworkTopology.healEdge_of_some h
    exact .inl ⟨htype, via, hnodes⟩
  | none => exact .inr (NetworkTopology.healEdge_of_none h)

theorem answersEdge_healEdge : (t.healEdge e).answersEdge = true := by
  unfold HealingAction.answersEdge
  rcases healEdge_answers (t := t) (e := e) with ⟨htype, -⟩ | ⟨htype, -⟩
  · rw [htype]
    rfl
  · rw [htype]
    rfl

theorem loadAction_actionType {id : String} {count : Nat}
    (h : NetworkTopology.loadAction id count = some action) :
    action.actionType = "load_balance" := by
  unfold NetworkTopology.loadAction at h
  split_ifs at h
  obtain rfl := Option.some.inj h
  rfl

/-- The actions for edges come first; the others balance load. -/
theorem mem_detectAndHeal (h : action ∈ t.detectAndHeal order) :
    (∃ e ∈ t.edges, e.failed = true ∧ t.healEdge e = action) ∨
      action.actionType = "load_balance" := by
  rcases List.mem_append.mp h with hedge | hload
  · obtain ⟨e, he, rfl⟩ := List.mem_map.mp hedge
    obtain ⟨hmem, hfailed⟩ := List.mem_filter.mp he
    exact .inl ⟨e, hmem, hfailed, rfl⟩
  · obtain ⟨entry, -, haction⟩ := List.mem_filterMap.mp hload
    exact .inr (loadAction_actionType haction)

theorem healEdge_mem (he : e ∈ t.edges) (hfailed : e.failed = true) :
    t.healEdge e ∈ t.detectAndHeal order :=
  List.mem_append_left _ (List.mem_map_of_mem (List.mem_filter.mpr ⟨he, hfailed⟩))

theorem filter_detectAndHeal :
    (t.detectAndHeal order).filter (·.answersEdge) =
      (t.edges.filter (·.failed)).map t.healEdge := by
  have hload : ∀ action ∈ (order.arrange t.nodeLoad).entries.filterMap
      fun entry => NetworkTopology.loadAction entry.1 entry.2,
      ¬ action.answersEdge = true := by
    intro action haction
    obtain ⟨entry, -, hentry⟩ := List.mem_filterMap.mp haction
    rw [HealingAction.answersEdge, loadAction_actionType hentry]
    decide
  have hedges : ∀ action ∈ (t.edges.filter (·.failed)).map t.healEdge,
      action.answersEdge = true := by
    intro action haction
    obtain ⟨e, -, rfl⟩ := List.mem_map.mp haction
    exact answersEdge_healEdge
  rw [NetworkTopology.detectAndHeal, List.filter_append, List.filter_eq_self.mpr hedges,
    List.filter_eq_nil_iff.mpr hload, List.append_nil]

/-- Each failed edge gets its one action, in the order of the edges. -/
theorem forall₂_answers :
    List.Forall₂ HealingAction.Answers (t.edges.filter (·.failed))
      ((t.detectAndHeal order).filter (·.answersEdge)) := by
  rw [filter_detectAndHeal, List.forall₂_map_right_iff, List.forall₂_same]
  exact fun e _ => healEdge_answers

theorem NetworkTopology.Healable.reroute {a via b : String} (h : t.Healable e)
    (htype : (t.healEdge e).actionType = "reroute")
    (hnodes : (t.healEdge e).affectedNodes = [a, via, b]) :
    via ≠ a ∧ via ≠ b ∧ t.UsableBetween a via ∧ t.UsableBetween via b := by
  cases hpath : t.findAlternativePath e.fromNode e.toNode with
  | none =>
    rw [(NetworkTopology.healEdge_of_none hpath).1] at htype
    exact absurd htype (by decide)
  | some n =>
    rw [(NetworkTopology.healEdge_of_some hpath).2] at hnodes
    obtain ⟨rfl, rfl, rfl⟩ : e.fromNode = a ∧ n = via ∧ e.toNode = b := by simpa using hnodes
    have hfirst := NetworkTopology.findAlternativePath_eq_some_iff.mp hpath
    obtain ⟨hne, husable, husable'⟩ := h.detour n hfirst
    obtain ⟨_, _, _, _, ⟨_, _, hend, _⟩, _⟩ := hfirst
    exact ⟨hne, hend, husable, husable'⟩

theorem NetworkTopology.Healable.isolate {a b : String} (h : t.Healable e)
    (htype : (t.healEdge e).actionType = "isolate_and_alert")
    (hnodes : (t.healEdge e).affectedNodes = [a, b]) :
    ¬ t.UsableBetween a b ∧ ∀ v, ¬ (t.UsableBetween a v ∧ t.UsableBetween v b) := by
  cases hpath : t.findAlternativePath e.fromNode e.toNode with
  | some n =>
    rw [(NetworkTopology.healEdge_of_some hpath).1] at htype
    exact absurd htype (by decide)
  | none =>
    rw [(NetworkTopology.healEdge_of_none hpath).2] at hnodes
    obtain ⟨rfl, rfl⟩ : e.fromNode = a ∧ e.toNode = b := by simpa using hnodes
    have hnone := NetworkTopology.findAlternativePath_eq_none_iff.mp hpath
    have hbeside := h.beside hnone
    refine ⟨hbeside, fun v ⟨hfrom, hto⟩ => ?_⟩
    have hv : v ≠ e.toNode := by
      rintro rfl
      exact hbeside hfrom
    exact hnone v hv hfrom.healthy hto.symm.healthy

end

theorem network_healing_sound_iff (t : NetworkTopology)
    (order : HashTable.IterationOrder String Nat) :
    HealingSound t (t.detectAndHeal order) ↔ ∀ e ∈ t.edges, ¬ e.Usable → t.Healable e := by
  constructor
  · intro h e he hunusable
    have hmem : t.healEdge e ∈ t.detectAndHeal order :=
      healEdge_mem he (NetworkEdge.failed_iff.mpr hunusable)
    constructor
    · intro n hfirst
      obtain ⟨htype, hnodes⟩ := NetworkTopology.healEdge_of_some
        (NetworkTopology.findAlternativePath_eq_some_iff.mpr hfirst)
      obtain ⟨hne, -, husable, husable'⟩ := h.reroute _ hmem htype _ _ _ hnodes
      exact ⟨hne, husable, husable'⟩
    · intro hnone
      obtain ⟨htype, hnodes⟩ := NetworkTopology.healEdge_of_none
        (NetworkTopology.findAlternativePath_eq_none_iff.mpr hnone)
      exact (h.isolate _ hmem htype _ _ hnodes).1
  · intro h
    refine ⟨forall₂_answers, fun action haction htype a via b hnodes => ?_,
      fun action haction htype a b hnodes => ?_⟩
    · rcases mem_detectAndHeal haction with ⟨e, he, hfailed, rfl⟩ | hload
      · exact (h e he (NetworkEdge.failed_iff.mp hfailed)).reroute htype hnodes
      · exact absurd (htype.symm.trans hload) (by decide)
    · rcases mem_detectAndHeal haction with ⟨e, he, hfailed, rfl⟩ | hload
      · exact (h e he (NetworkEdge.failed_iff.mp hfailed)).isolate htype hnodes
      · exact absurd (htype.symm.trans hload) (by decide)

/-- Two gateways joined twice, once by an edge that failed. -/
def doubleLink : NetworkTopology where
  nodes := [⟨"A", "healthy", "gateway"⟩, ⟨"B", "healthy", "gateway"⟩]
  edges := [⟨"A", "B", 10, 1000, false⟩, ⟨"A", "B", 10, 1000, true⟩]

theorem network_healing_unsound :
    ¬ HealingSound doubleLink (doubleLink.detectAndHeal .asIs) := by
  intro h
  have hmem : (⟨"isolate_and_alert", ["A", "B"],
      "no alternative path for A → B; isolating and alerting fleet"⟩ : HealingAction) ∈
      doubleLink.detectAndHeal .asIs := by
    decide
  refine (h.isolate _ hmem rfl "A" "B" rfl).1 ⟨⟨"A", "B", 10, 1000, true⟩, ?_, ⟨rfl, ?_⟩, ?_⟩
  · exact List.mem_cons_of_mem _ List.mem_cons_self
  · decide
  · exact .inl ⟨rfl, rfl⟩

end Wardex.Enforcement
