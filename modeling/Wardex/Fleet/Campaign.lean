import Wardex.Lib.DepthFirst
import Wardex.Lib.Grouping
import Wardex.Lib.Windows
import Mathlib.Algebra.Order.Field.Rat
import Mathlib.Data.List.FinRange
import Mathlib.Data.Set.Card

/-! Alerts of a fleet that are clustered into campaigns: components of the graph of those alerts
that come from different hosts, at about the same time, for about the same reasons.  Scores and
similarities are exact rationals. -/

namespace Wardex.Fleet

open Wardex.Lib

structure FleetAlert where
  alertId : String
  hostname : String
  timestampMs : ℕ
  score : ℚ
  level : String
  reasons : List String
  mitreTechniques : List String
deriving DecidableEq

structure Campaign where
  campaignId : String
  name : String
  hosts : List String
  alertCount : ℕ
  firstSeenMs : ℕ
  lastSeenMs : ℕ
  avgScore : ℚ
  maxScore : ℚ
  sharedTechniques : List String
  sharedReasons : List String
  severity : String
  alertIds : List String

structure TemporalChain where
  chainId : String
  host : String
  alertCount : ℕ
  firstSeenMs : ℕ
  lastSeenMs : ℕ
  avgScore : ℚ
  maxScore : ℚ
  severity : String
  sharedTechniques : List String
  sharedReasons : List String
  alertIds : List String

structure CampaignReport where
  campaigns : List Campaign
  temporalChains : List TemporalChain
  unclusteredAlerts : ℕ
  totalAlerts : ℕ
  fleetCoverage : ℚ

structure CampaignDetector where
  timeWindowMs : ℕ
  minSimilarity : ℚ
  minHosts : ℕ
  nextId : ℕ

def CampaignDetector.default : CampaignDetector where
  timeWindowMs := 3600000
  minSimilarity := 3 / 10
  minHosts := 2
  nextId := 1

/-! ### What alerts have in common -/

/-- The techniques and reasons of an alert. -/
def FleetAlert.evidence (a : FleetAlert) : Finset String :=
  (a.mitreTechniques ++ a.reasons).toFinset

def alertSimilarity (a b : FleetAlert) : ℚ :=
  if a.evidence = ∅ ∧ b.evidence = ∅ then 0
  else
    let intersection := (a.evidence ∩ b.evidence).card
    let union := (a.evidence ∪ b.evidence).card
    if union = 0 then 0 else intersection / union

/-- In how many of the groups each string is, sorted once the rare ones are dropped. -/
def findSharedStrings (groups : List (List String)) : List String :=
  let threshold := groups.length / 2 + 1
  (((tally (groups.flatMap List.dedup)).filter fun entry => threshold ≤ entry.2).map
    Prod.fst).insertionSort (· ≤ ·)

def isHighSeverity (level : String) : Bool := level = "Critical" || level = "Severe"

def averageScore (alerts : List FleetAlert) : ℚ :=
  (alerts.map FleetAlert.score).sum / alerts.length

def maxScore (alerts : List FleetAlert) : ℚ := (alerts.map FleetAlert.score).foldl max 0

def severityOf (maxScore : ℚ) : String :=
  if 5 ≤ maxScore then "Critical" else if 35 / 10 ≤ maxScore then "Severe" else "Elevated"

namespace CampaignDetector

/-! ### Chains on one host -/

def shouldExtend (detector : CampaignDetector) (chain : List FleetAlert) (alert : FleetAlert) :
    Bool :=
  match chain.getLast? with
  | some last =>
    let gapMs := alert.timestampMs - last.timestampMs
    let similarity := (chain.map fun existing => alertSimilarity existing alert).foldl max 0
    let severeBurst :=
      (chain.any fun existing => isHighSeverity existing.level) && isHighSeverity alert.level
    gapMs ≤ min (max detector.timeWindowMs 60000) 600000 &&
      (min (max (detector.minSimilarity / 2) (1 / 10)) 1 ≤ similarity || severeBurst)
  | none => true

def buildTemporalChain (nextId : ℕ) (host : String) (alerts : List FleetAlert) :
    Option TemporalChain :=
  if alerts.length < 2 then none
  else some {
    chainId := "chain-" ++ toString nextId
    host := host
    alertCount := alerts.length
    firstSeenMs := alerts.head?.elim 0 FleetAlert.timestampMs
    lastSeenMs := alerts.getLast?.elim 0 FleetAlert.timestampMs
    avgScore := averageScore alerts
    maxScore := maxScore alerts
    severity := severityOf (maxScore alerts)
    sharedTechniques := findSharedStrings (alerts.map FleetAlert.mitreTechniques)
    sharedReasons := findSharedStrings (alerts.map FleetAlert.reasons)
    alertIds := alerts.map FleetAlert.alertId }

/-- The alerts of a host, cut where a chain is not extended. -/
def splitChains (detector : CampaignDetector) : List FleetAlert → List FleetAlert →
    List (List FleetAlert)
  | chain, [] => [chain]
  | chain, alert :: alerts =>
    if detector.shouldExtend chain alert then splitChains detector (chain ++ [alert]) alerts
    else chain :: splitChains detector [alert] alerts

/-- A chain is numbered when it is built. -/
def buildChains : ℕ → List (String × List FleetAlert) → List TemporalChain × ℕ
  | nextId, [] => ([], nextId)
  | nextId, (host, alerts) :: rest =>
    match buildTemporalChain nextId host alerts with
    | some chain =>
      let (chains, last) := buildChains (nextId + 1) rest
      (chain :: chains, last)
    | none => buildChains nextId rest

/-- The order of the chains: the latest first, and of those the longest. -/
def chainBefore (left right : TemporalChain) : Bool :=
  right.lastSeenMs < left.lastSeenMs ||
    right.lastSeenMs = left.lastSeenMs && right.alertCount ≤ left.alertCount

def detectTemporalChains (detector : CampaignDetector) (order : IterationOrder String)
    (nextId : ℕ) (alerts : List FleetAlert) : List TemporalChain × ℕ :=
  let byHost := groups order (alerts.map fun alert => (alert.hostname, alert))
  let cut := byHost.flatMap fun group =>
    let alerts := group.2.insertionSort (Rising FleetAlert.timestampMs)
    (splitChains detector [] alerts).map fun chain => (group.1, chain)
  let (chains, last) := buildChains nextId cut
  (chains.mergeSort chainBefore, last)

/-! ### Campaigns across hosts -/

section

variable (detector : CampaignDetector) (sorted : List FleetAlert)

/-- The pairs that are linked, in the order in which they are met.  The inner loop stops at the
first alert outside the window. -/
def pairs : List (Fin sorted.length × Fin sorted.length) :=
  (List.finRange sorted.length).flatMap fun (i : Fin sorted.length) =>
    ((((List.finRange sorted.length).drop (i + 1)).takeWhile fun j =>
        (sorted.get j).timestampMs - (sorted.get i).timestampMs ≤ detector.timeWindowMs).filter
      fun j => (sorted.get i).hostname ≠ (sorted.get j).hostname ∧
        detector.minSimilarity ≤ alertSimilarity (sorted.get i) (sorted.get j)).map fun j => (i, j)

/-- Each pair is pushed on both sides. -/
def adj (k : Fin sorted.length) : List (Fin sorted.length) :=
  (pairs detector sorted).filterMap fun pair =>
    if pair.1 = k then some pair.2 else if pair.2 = k then some pair.1 else none

def graph : FiniteGraph (Fin sorted.length) where
  next := adj detector sorted
  bound := List.finRange sorted.length
  next_mem _ j _ := List.mem_finRange j

/-- The stack holds nothing but the neighbors. -/
def neighbors : Carrying (graph detector sorted) Unit where
  offers k _ := (adj detector sorted k).map fun j => (j, ())
  targets k _ := by
    rw [List.map_map]
    exact List.map_id _

def components : List (List FleetAlert) :=
  ((List.finRange sorted.length).foldl ((neighbors detector sorted).sweep ()) ([], [])).2.map
    fun component => component.map sorted.get

end

def hostsOf (alerts : List FleetAlert) : List String := (alerts.map FleetAlert.hostname).dedup

def campaignName (techniques reasons : List String) (hosts : ℕ) : String :=
  match techniques, reasons with
  | technique :: _, _ => technique ++ " campaign across " ++ toString hosts ++ " hosts"
  | [], reason :: _ => reason ++ " campaign across " ++ toString hosts ++ " hosts"
  | [], [] => "Coordinated activity across " ++ toString hosts ++ " hosts"

def campaignOf (order : IterationOrder String) (nextId : ℕ) (alerts : List FleetAlert) :
    Campaign where
  campaignId := "campaign-" ++ toString nextId
  name := campaignName (findSharedStrings (alerts.map FleetAlert.mitreTechniques))
    (findSharedStrings (alerts.map FleetAlert.reasons)) (hostsOf alerts).length
  hosts := order.order (hostsOf alerts)
  alertCount := alerts.length
  firstSeenMs := (alerts.map FleetAlert.timestampMs).min?.getD 0
  lastSeenMs := (alerts.map FleetAlert.timestampMs).max?.getD 0
  avgScore := averageScore alerts
  maxScore := maxScore alerts
  sharedTechniques := findSharedStrings (alerts.map FleetAlert.mitreTechniques)
  sharedReasons := findSharedStrings (alerts.map FleetAlert.reasons)
  severity := severityOf (maxScore alerts)
  alertIds := alerts.map FleetAlert.alertId

/-- What the loop over the components collects. -/
structure Collected where
  campaigns : List Campaign
  clustered : ℕ
  nextId : ℕ

def collect (detector : CampaignDetector) (order : IterationOrder String) (acc : Collected)
    (component : List FleetAlert) : Collected :=
  if (hostsOf component).length < detector.minHosts then acc
  else
    { campaigns := acc.campaigns ++ [campaignOf order acc.nextId component]
      clustered := acc.clustered + component.length
      nextId := acc.nextId + 1 }

def detect (order : IterationOrder String) (detector : CampaignDetector)
    (alerts : List FleetAlert) : CampaignDetector × CampaignReport :=
  if alerts = [] then (detector, ⟨[], [], 0, 0, 0⟩)
  else
    let sorted := alerts.insertionSort (Rising FleetAlert.timestampMs)
    let collected :=
      (components detector sorted).foldl (collect detector order) ⟨[], 0, detector.nextId⟩
    let allHosts := hostsOf alerts
    let campaignHosts := (collected.campaigns.flatMap Campaign.hosts).dedup
    let chains := detectTemporalChains detector order collected.nextId sorted
    ({ detector with nextId := chains.2 },
      { campaigns := collected.campaigns
        temporalChains := chains.1
        unclusteredAlerts := alerts.length - collected.clustered
        totalAlerts := alerts.length
        fleetCoverage :=
          if allHosts = [] then 0 else (campaignHosts.length : ℚ) / allHosts.length })

/-! ### The graph -/

end CampaignDetector

/-- The share of common elements, nothing over nothing being zero. -/
def jaccard (A B : Finset String) : ℚ := (A ∩ B).card / (A ∪ B).card

theorem alertSimilarity_eq (a b : FleetAlert) :
    alertSimilarity a b = jaccard a.evidence b.evidence := by
  unfold alertSimilarity jaccard
  dsimp only
  split_ifs with hempty hunion
  · rw [hempty.1, Finset.empty_inter, Finset.card_empty, Nat.cast_zero, zero_div]
  · rw [hunion, Nat.cast_zero, div_zero]
  · rfl

theorem jaccard_comm (A B : Finset String) : jaccard A B = jaccard B A := by
  rw [jaccard, jaccard, Finset.inter_comm, Finset.union_comm]

namespace CampaignDetector

/-- What links two alerts. -/
structure Linked (detector : CampaignDetector) (a b : FleetAlert) : Prop where
  hosts : a.hostname ≠ b.hostname
  earliest : a.timestampMs ≤ b.timestampMs + detector.timeWindowMs
  latest : b.timestampMs ≤ a.timestampMs + detector.timeWindowMs
  similar : detector.minSimilarity ≤ jaccard a.evidence b.evidence

variable {detector : CampaignDetector} {sorted alerts : List FleetAlert} {a b : FleetAlert}

theorem Linked.symm (h : Linked detector a b) : Linked detector b a where
  hosts := h.hosts.symm
  earliest := h.latest
  latest := h.earliest
  similar := jaccard_comm a.evidence b.evidence ▸ h.similar

section

variable (hsorted : sorted.Pairwise (Rising FleetAlert.timestampMs)) {i j k : Fin sorted.length}

include hsorted

theorem timestamp_le (h : i ≤ j) :
    (sorted.get i).timestampMs ≤ (sorted.get j).timestampMs := by
  rcases h.eq_or_lt with rfl | hlt
  · exact le_rfl
  · exact List.pairwise_iff_get.mp hsorted i j hlt

/-- Stopping at the first alert outside the window misses none. -/
theorem mem_pairs : (i, j) ∈ pairs detector sorted ↔
    i < j ∧ Linked detector (sorted.get i) (sorted.get j) := by
  have hdrop (i j : Fin sorted.length) :
      j ∈ (List.finRange sorted.length).drop (i + 1) ↔ i < j := by
    rw [List.mem_drop_iff_getElem]
    constructor
    · rintro ⟨m, hm, rfl⟩
      rw [List.getElem_finRange, Fin.lt_def]
      exact Nat.lt_add_right m (Nat.lt_succ_self i)
    · intro hlt
      have hsum : (i : ℕ) + 1 + (j - (i + 1)) = j := by omega
      refine ⟨j - (i + 1), by rw [List.length_finRange]; omega, ?_⟩
      rw [List.getElem_finRange]
      exact Fin.ext hsum
  have hrising (i : Fin sorted.length) : ((List.finRange sorted.length).drop (i + 1)).Pairwise
      (Rising fun j => (sorted.get j).timestampMs) := by
    have hall : (List.finRange sorted.length).Pairwise
        (Rising fun j => (sorted.get j).timestampMs) :=
      (List.pairwise_lt_finRange _).imp fun {i j} hlt => timestamp_le hsorted hlt.le
    exact hall.sublist (List.drop_sublist _ _)
  have hcut (i : Fin sorted.length) (j k : Fin sorted.length)
      (hjk : (sorted.get j).timestampMs ≤ (sorted.get k).timestampMs)
      (hk : decide ((sorted.get k).timestampMs - (sorted.get i).timestampMs ≤
        detector.timeWindowMs) = true) :
      decide ((sorted.get j).timestampMs - (sorted.get i).timestampMs ≤
        detector.timeWindowMs) = true := by
    rw [decide_eq_true_eq] at hk ⊢
    omega
  rw [pairs, List.mem_flatMap]
  constructor
  · rintro ⟨i', -, hmem⟩
    obtain ⟨j', hj', heq⟩ := List.mem_map.mp hmem
    obtain ⟨rfl, rfl⟩ := Prod.mk.inj heq
    rw [takeWhile_eq_filter (hrising i') (hcut i'), List.filter_filter, List.mem_filter,
      hdrop] at hj'
    obtain ⟨hlt, hlinked⟩ := hj'
    rw [Bool.and_eq_true, decide_eq_true_eq, decide_eq_true_eq, alertSimilarity_eq] at hlinked
    have hle := timestamp_le hsorted hlt.le
    exact ⟨hlt, hlinked.1.1, by omega, by omega, hlinked.1.2⟩
  · rintro ⟨hlt, hlinked⟩
    refine ⟨i, List.mem_finRange i, List.mem_map.mpr ⟨j, ?_, rfl⟩⟩
    rw [takeWhile_eq_filter (hrising i) (hcut i), List.filter_filter, List.mem_filter, hdrop,
      Bool.and_eq_true, decide_eq_true_eq, decide_eq_true_eq, alertSimilarity_eq]
    have hlatest := hlinked.latest
    exact ⟨hlt, ⟨hlinked.hosts, hlinked.similar⟩, by omega⟩

theorem mem_adj : j ∈ adj detector sorted k ↔ Linked detector (sorted.get k) (sorted.get j) := by
  have hlt (i j : Fin sorted.length) : (i, j) ∈ pairs detector sorted ↔
      i < j ∧ Linked detector (sorted.get i) (sorted.get j) := mem_pairs hsorted
  rw [adj, List.mem_filterMap]
  constructor
  · rintro ⟨⟨i, i'⟩, hmem, hpair⟩
    have hlinked := ((hlt i i').mp hmem).2
    dsimp only at hpair
    split_ifs at hpair with hfirst hsecond
    · cases hpair
      exact hfirst ▸ hlinked
    · cases hpair
      exact hsecond ▸ hlinked.symm
  · intro hlinked
    have hne : k ≠ j := fun heq => hlinked.hosts (heq ▸ rfl)
    rcases lt_or_gt_of_ne hne with hkj | hjk
    · exact ⟨(k, j), (hlt k j).mpr ⟨hkj, hlinked⟩, if_pos rfl⟩
    · refine ⟨(j, k), (hlt j k).mpr ⟨hjk, hlinked.symm⟩, ?_⟩
      exact (if_neg hne.symm).trans (if_pos rfl)

end

/-! ### Components -/

/-- There is a chain of links from one alert to the other. -/
def Joined (detector : CampaignDetector) (alerts : List FleetAlert) :
    FleetAlert → FleetAlert → Prop :=
  Relation.ReflTransGen fun a b => a ∈ alerts ∧ b ∈ alerts ∧ Linked detector a b

/-- A connected component of the graph of the alerts. -/
def IsComponent (detector : CampaignDetector) (alerts : List FleetAlert) (S : Set FleetAlert) :
    Prop :=
  ∃ a ∈ alerts, S = {b | Joined detector alerts a b}

theorem isComponent_perm (h : alerts.Perm sorted) {S : Set FleetAlert} :
    IsComponent detector alerts S ↔ IsComponent detector sorted S := by
  have hjoined : Joined detector alerts = Joined detector sorted := by
    rw [Joined, Joined]
    simp only [h.mem_iff]
  simp only [IsComponent, h.mem_iff, hjoined]

theorem Joined.mem (ha : a ∈ alerts) (h : Joined detector alerts a b) : b ∈ alerts := by
  induction h with
  | refl => exact ha
  | tail _ hlink _ => exact hlink.2.1

theorem Joined.symm (h : Joined detector alerts a b) : Joined detector alerts b a := by
  induction h with
  | refl => exact .refl
  | tail _ hlink ih => exact .head ⟨hlink.2.1, hlink.1, hlink.2.2.symm⟩ ih

/-- The alerts of one component, each once. -/
structure ComponentOf (detector : CampaignDetector) (alerts group : List FleetAlert) : Prop where
  nodup : group.Nodup
  nonempty : group ≠ []
  joined : ∀ a ∈ group, a ∈ alerts ∧ ∀ b, b ∈ group ↔ Joined detector alerts a b

theorem ComponentOf.isComponent (h : ComponentOf detector alerts sorted) :
    IsComponent detector alerts {a | a ∈ sorted} := by
  obtain ⟨a, ha⟩ := List.exists_mem_of_ne_nil _ h.nonempty
  obtain ⟨hmem, hall⟩ := h.joined a ha
  exact ⟨a, hmem, Set.ext hall⟩

section

variable (hsorted : sorted.Pairwise (Rising FleetAlert.timestampMs)) (hnodup : sorted.Nodup)
  {i j : Fin sorted.length}

include hsorted

theorem link_iff : (graph detector sorted).Link i j ↔
    Linked detector (sorted.get i) (sorted.get j) := mem_adj hsorted

theorem reaches_symm_graph (x y : Fin sorted.length) (h : (graph detector sorted).Link x y) :
    (graph detector sorted).Reaches y x :=
  .single ((link_iff hsorted).mpr ((link_iff hsorted).mp h).symm)

include hnodup

/-- Positions are connected like the alerts that stand there. -/
theorem reaches_iff_joined : (graph detector sorted).Reaches i j ↔
    Joined detector sorted (sorted.get i) (sorted.get j) := by
  constructor
  · intro h
    refine Relation.ReflTransGen.lift sorted.get (fun x y hlink => ?_) i j h
    exact ⟨List.get_mem _ _, List.get_mem _ _, (link_iff hsorted).mp hlink⟩
  · intro h
    have hex : ∀ b, Joined detector sorted (sorted.get i) b →
        ∃ k, sorted.get k = b ∧ (graph detector sorted).Reaches i k := by
      intro b hb
      induction hb with
      | refl => exact ⟨i, rfl, .refl⟩
      | tail _ hlink ih =>
        obtain ⟨k, rfl, hk⟩ := ih
        obtain ⟨l, rfl⟩ := List.mem_iff_get.mp hlink.2.1
        exact ⟨l, rfl, hk.tail ((link_iff hsorted).mpr hlink.2.2)⟩
    obtain ⟨k, heq, hk⟩ := hex _ h
    rwa [hnodup.injective_get heq] at hk

/-- The search finds the components, each once. -/
theorem componentOf_components {group : List FleetAlert} (h : group ∈ components detector sorted) :
    ComponentOf detector sorted group := by
  have hswept := (Carrying.swept_foldl (c := neighbors detector sorted) ()
    (List.finRange sorted.length))
  obtain ⟨component, hcomponent, rfl⟩ := List.mem_map.mp h
  obtain ⟨earlier, hfound⟩ := hswept.exists_found hcomponent
  have hdistinct : component.Nodup := by
    have hflat := hswept.nodup
    rw [← hswept.flatten] at hflat
    exact (List.nodup_flatten.mp hflat).1 component hcomponent
  refine ⟨hdistinct.map hnodup.injective_get, List.map_eq_nil_iff.not.mpr hfound.ne_nil, ?_⟩
  intro a ha
  obtain ⟨i, hi, rfl⟩ := List.mem_map.mp ha
  refine ⟨List.get_mem _ _, fun b => ?_⟩
  have hwhole (j : Fin sorted.length) : j ∈ component ↔ (graph detector sorted).Reaches i j := by
    rw [hfound.mem_iff_connected (reaches_symm_graph hsorted) hi,
      FiniteGraph.connected_iff_reaches (reaches_symm_graph hsorted)]
  constructor
  · intro hb
    obtain ⟨j, hj, rfl⟩ := List.mem_map.mp hb
    exact (reaches_iff_joined hsorted hnodup).mp ((hwhole j).mp hj)
  · intro hb
    obtain ⟨j, rfl⟩ := List.mem_iff_get.mp (hb.mem (List.get_mem _ _))
    exact List.mem_map.mpr ⟨j, (hwhole j).mpr ((reaches_iff_joined hsorted hnodup).mpr hb), rfl⟩

omit hsorted in
variable (detector) in
theorem pairwise_components : (components detector sorted).Pairwise List.Disjoint := by
  have hswept := (Carrying.swept_foldl (c := neighbors detector sorted) ()
    (List.finRange sorted.length))
  have hflat := hswept.nodup
  rw [← hswept.flatten] at hflat
  refine List.pairwise_map.mpr ((List.nodup_flatten.mp hflat).2.imp fun hdisjoint => ?_)
  exact (List.disjoint_map hnodup.injective_get hdisjoint)

omit hsorted hnodup in
variable (detector) in
theorem exists_component (ha : a ∈ sorted) : ∃ group ∈ components detector sorted, a ∈ group := by
  have hswept := (Carrying.swept_foldl (c := neighbors detector sorted) ()
    (List.finRange sorted.length))
  obtain ⟨i, rfl⟩ := List.mem_iff_get.mp ha
  have hvisited := hswept.subset (List.mem_finRange i)
  rw [← hswept.flatten, List.mem_flatten] at hvisited
  obtain ⟨component, hcomponent, hi⟩ := hvisited
  exact ⟨_, List.mem_map_of_mem hcomponent, List.mem_map_of_mem hi⟩

end

end CampaignDetector

/-! ### What is said of a component -/

theorem count_flatMap_dedup (groups : List (List String)) (s : String) :
    (groups.flatMap List.dedup).count s = groups.countP fun group => s ∈ group := by
  induction groups with
  | nil => rfl
  | cons group groups ih =>
    rw [List.flatMap_cons, List.count_append, ih, List.countP_cons, List.count_dedup,
      Nat.add_comm]
    simp only [decide_eq_true_eq]

/-- A string is shared if more than half of the groups have it. -/
theorem mem_findSharedStrings {groups : List (List String)} {s : String} :
    s ∈ findSharedStrings groups ↔ groups.length < 2 * groups.countP fun group => s ∈ group := by
  have hthreshold (n m : ℕ) : n / 2 + 1 ≤ m ↔ n < 2 * m := by omega
  rw [findSharedStrings, List.mem_insertionSort, List.mem_map]
  constructor
  · rintro ⟨⟨t, n⟩, hmem, rfl⟩
    obtain ⟨hentry, hcount⟩ := List.mem_filter.mp hmem
    obtain ⟨u, -, heq⟩ := List.mem_map.mp hentry
    obtain ⟨rfl, rfl⟩ := Prod.mk.inj heq
    rw [decide_eq_true_eq, hthreshold, count_flatMap_dedup] at hcount
    exact hcount
  · intro hcount
    have hpos : 0 < (groups.flatMap List.dedup).count s := by
      rw [count_flatMap_dedup]
      omega
    refine ⟨(s, (groups.flatMap List.dedup).count s), List.mem_filter.mpr ⟨?_, ?_⟩, rfl⟩
    · exact List.mem_map.mpr ⟨s, List.mem_dedup.mpr (List.count_pos_iff.mp hpos), rfl⟩
    · rw [decide_eq_true_eq, hthreshold, count_flatMap_dedup]
      exact hcount

theorem nodup_findSharedStrings (groups : List (List String)) :
    (findSharedStrings groups).Nodup := by
  rw [findSharedStrings, (List.perm_insertionSort _ _).nodup_iff]
  refine List.Nodup.sublist (List.filter_sublist.map Prod.fst) ?_
  rw [map_fst_tally]
  exact List.nodup_dedup _

/-- The campaign is the one of the alerts. -/
structure Describes (group : List FleetAlert) (campaign : Campaign) : Prop where
  hosts : campaign.hosts.Nodup ∧ ∀ host, host ∈ campaign.hosts ↔ ∃ a ∈ group, a.hostname = host
  alertIds : campaign.alertIds.Perm (group.map FleetAlert.alertId)
  alertCount : campaign.alertCount = group.length
  firstSeen : IsLeast {t | ∃ a ∈ group, a.timestampMs = t} campaign.firstSeenMs
  lastSeen : IsGreatest {t | ∃ a ∈ group, a.timestampMs = t} campaign.lastSeenMs
  techniques : campaign.sharedTechniques.Nodup ∧ ∀ s, s ∈ campaign.sharedTechniques ↔
    group.length < 2 * group.countP fun a => s ∈ a.mitreTechniques
  reasons : campaign.sharedReasons.Nodup ∧ ∀ s, s ∈ campaign.sharedReasons ↔
    group.length < 2 * group.countP fun a => s ∈ a.reasons

theorem describes_campaignOf (order : IterationOrder String) (nextId : ℕ)
    {group : List FleetAlert} (h : group ≠ []) :
    Describes group (CampaignDetector.campaignOf order nextId group) := by
  have hshared (strings : FleetAlert → List String) (s : String) :
      s ∈ findSharedStrings (group.map strings) ↔
        group.length < 2 * group.countP fun a => s ∈ strings a := by
    rw [mem_findSharedStrings, List.length_map, List.countP_map]
    exact Iff.rfl
  have htimes (t : ℕ) : t ∈ group.map FleetAlert.timestampMs ↔
      t ∈ {t | ∃ a ∈ group, a.timestampMs = t} := List.mem_map
  have hne : group.map FleetAlert.timestampMs ≠ [] := List.map_eq_nil_iff.not.mpr h
  constructor
  · refine ⟨(order.perm _).nodup_iff.mpr (List.nodup_dedup _), fun host => ?_⟩
    exact (order.perm _).mem_iff.trans (List.mem_dedup.trans List.mem_map)
  · exact List.Perm.refl _
  · rfl
  · obtain ⟨first, hfirst⟩ := Option.isSome_iff_exists.mp (List.isSome_min?_of_ne_nil hne)
    obtain ⟨hmem, hle⟩ := List.min?_eq_some_iff.mp hfirst
    rw [CampaignDetector.campaignOf, hfirst]
    exact ⟨(htimes first).mp hmem, fun t ht => hle t ((htimes t).mpr ht)⟩
  · obtain ⟨last, hlast⟩ := Option.isSome_iff_exists.mp (List.isSome_max?_of_ne_nil hne)
    obtain ⟨hmem, hle⟩ := List.max?_eq_some_iff.mp hlast
    rw [CampaignDetector.campaignOf, hlast]
    exact ⟨(htimes last).mp hmem, fun t ht => hle t ((htimes t).mpr ht)⟩
  · exact ⟨nodup_findSharedStrings _, hshared FleetAlert.mitreTechniques⟩
  · exact ⟨nodup_findSharedStrings _, hshared FleetAlert.reasons⟩

/-! ### What is detected -/

namespace CampaignDetector

variable {detector : CampaignDetector} {order : IterationOrder String}
  {alerts sorted : List FleetAlert}

/-- The components that are reported. -/
def large (detector : CampaignDetector) (components : List (List FleetAlert)) :
    List (List FleetAlert) :=
  components.filter fun component => detector.minHosts ≤ (hostsOf component).length

variable (detector order) in
theorem foldl_collect (components : List (List FleetAlert))
    (hne : ∀ component ∈ components, component ≠ []) (acc : Collected) :
    ∃ found, (components.foldl (collect detector order) acc).campaigns = acc.campaigns ++ found ∧
      List.Forall₂ Describes (large detector components) found ∧
      (components.foldl (collect detector order) acc).clustered =
        acc.clustered + (large detector components).flatten.length := by
  induction components generalizing acc with
  | nil => exact ⟨[], (List.append_nil _).symm, List.Forall₂.nil, rfl⟩
  | cons component components ih =>
    obtain ⟨hhead, hrest⟩ := List.forall_mem_cons.mp hne
    rw [List.foldl_cons, collect]
    split_ifs with hsmall
    · have hlarge : large detector (component :: components) = large detector components :=
        List.filter_cons_of_neg (by rw [decide_eq_true_eq]; omega)
      rw [hlarge]
      exact ih hrest acc
    · have hlarge : large detector (component :: components) =
          component :: large detector components :=
        List.filter_cons_of_pos (by rw [decide_eq_true_eq]; omega)
      obtain ⟨found, hcampaigns, hdescribed, hclustered⟩ := ih hrest
        { campaigns := acc.campaigns ++ [campaignOf order acc.nextId component]
          clustered := acc.clustered + component.length
          nextId := acc.nextId + 1 }
      refine ⟨campaignOf order acc.nextId component :: found, ?_, ?_, ?_⟩
      · rw [hcampaigns, List.append_assoc, List.singleton_append]
      · rw [hlarge]
        exact .cons (describes_campaignOf order acc.nextId hhead) hdescribed
      · rw [hclustered, hlarge, List.flatten_cons, List.length_append, Nat.add_assoc]

/-- The groups are the components with enough hosts, each once, the campaigns describe them, and
what is in none of them is counted. -/
structure Clusters (detector : CampaignDetector) (alerts : List FleetAlert)
    (report : CampaignReport) (found : List (List FleetAlert)) : Prop where
  nodup : ∀ group ∈ found, group.Nodup
  disjoint : found.Pairwise List.Disjoint
  components : ∀ S : Set FleetAlert, (∃ group ∈ found, S = {a | a ∈ group}) ↔
    IsComponent detector alerts S ∧ detector.minHosts ≤ (Set.image FleetAlert.hostname S).ncard
  described : List.Forall₂ Describes found report.campaigns
  unclustered : report.unclusteredAlerts =
    alerts.countP fun a => decide (∀ group ∈ found, a ∉ group)

theorem ncard_hosts (group : List FleetAlert) :
    (Set.image FleetAlert.hostname {a | a ∈ group}).ncard = (hostsOf group).length := by
  have himage : Set.image FleetAlert.hostname {a | a ∈ group} =
      ↑(group.map FleetAlert.hostname).toFinset := by
    ext host
    simp
  rw [himage, Set.ncard_coe_finset, List.card_toFinset, hostsOf]

theorem isComponent_iff_mem (hsorted : sorted.Pairwise (Rising FleetAlert.timestampMs))
    (hnodup : sorted.Nodup) (S : Set FleetAlert) :
    (∃ group ∈ large detector (components detector sorted), S = {a | a ∈ group}) ↔
      IsComponent detector sorted S ∧
        detector.minHosts ≤ (Set.image FleetAlert.hostname S).ncard := by
  constructor
  · rintro ⟨group, hgroup, rfl⟩
    obtain ⟨hmem, hlarge⟩ := List.mem_filter.mp hgroup
    rw [ncard_hosts]
    exact ⟨(componentOf_components hsorted hnodup hmem).isComponent, of_decide_eq_true hlarge⟩
  · rintro ⟨⟨a, ha, rfl⟩, hhosts⟩
    obtain ⟨group, hgroup, hmem⟩ := exists_component detector ha
    have hwhole : {b | Joined detector sorted a b} = {b | b ∈ group} :=
      Set.ext fun b =>
        (((componentOf_components hsorted hnodup hgroup).joined a hmem).2 b).symm
    rw [hwhole, ncard_hosts] at hhosts
    exact ⟨group, List.mem_filter.mpr ⟨hgroup, decide_eq_true hhosts⟩, hwhole⟩

theorem length_flatten_add_countP {found : List (List FleetAlert)} (hnodup : alerts.Nodup)
    (hflat : found.flatten.Nodup) (hsub : found.flatten ⊆ alerts) :
    found.flatten.length + (alerts.countP fun a => decide (∀ group ∈ found, a ∉ group)) =
      alerts.length := by
  have hin : (alerts.countP fun a => decide (a ∈ found.flatten)) = found.flatten.length := by
    rw [List.countP_eq_length_filter]
    refine ((List.perm_ext_iff_of_nodup (hnodup.filter _) hflat).mpr fun a => ?_).length_eq
    rw [List.mem_filter, decide_eq_true_eq]
    exact and_iff_right_of_imp fun ha => hsub ha
  rw [List.length_eq_countP_add_countP (fun a => decide (a ∈ found.flatten)) (l := alerts), hin]
  refine congrArg _ (List.countP_congr fun a _ => ?_)
  simp only [List.mem_flatten, decide_eq_true_eq, not_exists, not_and]

theorem clusters_detect (order : IterationOrder String) (detector : CampaignDetector)
    (hnodup : alerts.Nodup) :
    ∃ found, Clusters detector alerts (detect order detector alerts).2 found := by
  by_cases hempty : alerts = []
  · subst hempty
    refine ⟨[], nofun, List.Pairwise.nil, fun S => ?_, List.Forall₂.nil, rfl⟩
    refine iff_of_false nofun ?_
    rintro ⟨⟨a, ha, -⟩, -⟩
    exact List.not_mem_nil ha
  have hperm : (alerts.insertionSort (Rising FleetAlert.timestampMs)).Perm alerts :=
    List.perm_insertionSort _ _
  have hsorted := pairwise_sorted FleetAlert.timestampMs alerts
  rw [detect, if_neg hempty]
  generalize alerts.insertionSort (Rising FleetAlert.timestampMs) = sorted at hperm hsorted
  have hdistinct : sorted.Nodup := hperm.nodup_iff.mpr hnodup
  have hcomponent {group : List FleetAlert} (h : group ∈ components detector sorted) :
      ComponentOf detector sorted group := componentOf_components hsorted hdistinct h
  have hlarge : (large detector (components detector sorted)).Sublist
      (components detector sorted) := List.filter_sublist
  obtain ⟨found, hcampaigns, hdescribed, hclustered⟩ :=
    foldl_collect detector order (components detector sorted)
      (fun group h => (hcomponent h).nonempty) ⟨[], 0, detector.nextId⟩
  have hdisjoint := (pairwise_components detector hdistinct).sublist hlarge
  refine ⟨large detector (components detector sorted), ?_, hdisjoint, fun S => ?_, ?_, ?_⟩
  · exact fun group h => (hcomponent (hlarge.subset h)).nodup
  · rw [isComponent_perm hperm.symm]
    exact isComponent_iff_mem hsorted hdistinct S
  · dsimp only
    rw [hcampaigns, List.nil_append]
    exact hdescribed
  · dsimp only
    have hflat : (large detector (components detector sorted)).flatten.Nodup :=
      List.nodup_flatten.mpr ⟨fun group h => (hcomponent (hlarge.subset h)).nodup, hdisjoint⟩
    have hsub : (large detector (components detector sorted)).flatten ⊆ alerts := by
      intro a ha
      obtain ⟨group, hgroup, hmem⟩ := List.mem_flatten.mp ha
      exact hperm.subset ((hcomponent (hlarge.subset hgroup)).joined a hmem).1
    have hcount := length_flatten_add_countP hnodup hflat hsub
    rw [hclustered, Nat.zero_add]
    omega

end CampaignDetector

/-- Two campaigns that are the same up to the order in which their parts are listed. -/
structure SameCampaign (c c' : Campaign) : Prop where
  hosts : c.hosts.Perm c'.hosts
  alertIds : c.alertIds.Perm c'.alertIds
  alertCount : c.alertCount = c'.alertCount
  firstSeen : c.firstSeenMs = c'.firstSeenMs
  lastSeen : c.lastSeenMs = c'.lastSeenMs
  techniques : c.sharedTechniques.Perm c'.sharedTechniques
  reasons : c.sharedReasons.Perm c'.sharedReasons

theorem Describes.same {group group' : List FleetAlert} {c c' : Campaign} (h : Describes group c)
    (h' : Describes group' c') (hperm : group.Perm group') : SameCampaign c c' := by
  have htimes : {t | ∃ a ∈ group, a.timestampMs = t} = {t | ∃ a ∈ group', a.timestampMs = t} := by
    simp only [hperm.mem_iff]
  constructor
  · refine (List.perm_ext_iff_of_nodup h.hosts.1 h'.hosts.1).mpr fun host => ?_
    rw [h.hosts.2, h'.hosts.2]
    simp only [hperm.mem_iff]
  · exact h.alertIds.trans ((hperm.map _).trans h'.alertIds.symm)
  · rw [h.alertCount, h'.alertCount, hperm.length_eq]
  · exact h.firstSeen.unique (htimes ▸ h'.firstSeen)
  · exact h.lastSeen.unique (htimes ▸ h'.lastSeen)
  · refine (List.perm_ext_iff_of_nodup h.techniques.1 h'.techniques.1).mpr fun s => ?_
    rw [h.techniques.2, h'.techniques.2, hperm.length_eq, hperm.countP_eq]
  · refine (List.perm_ext_iff_of_nodup h.reasons.1 h'.reasons.1).mpr fun s => ?_
    rw [h.reasons.2, h'.reasons.2, hperm.length_eq, hperm.countP_eq]

namespace CampaignDetector

/-- The campaigns are the components of the graph of the alerts that have enough hosts, and are
the same in whatever order the alerts are given. -/
theorem campaigns_exact (order : IterationOrder String) (detector : CampaignDetector)
    (alerts : List FleetAlert) (hids : (alerts.map FleetAlert.alertId).Nodup) :
    (∃ found, Clusters detector alerts (detect order detector alerts).2 found) ∧
    ∀ order' alerts', alerts.Perm alerts' →
      (∀ S, IsComponent detector alerts S ↔ IsComponent detector alerts' S) ∧
      ∀ c ∈ (detect order detector alerts).2.campaigns,
        ∃ c' ∈ (detect order' detector alerts').2.campaigns, SameCampaign c c' := by
  have hnodup : alerts.Nodup := hids.of_map
  refine ⟨clusters_detect order detector hnodup, fun order' alerts' hperm => ?_⟩
  refine ⟨fun S => isComponent_perm hperm, fun c hc => ?_⟩
  obtain ⟨found, hfound⟩ := clusters_detect order detector hnodup
  obtain ⟨found', hfound'⟩ := clusters_detect order' detector (hperm.nodup_iff.mp hnodup)
  obtain ⟨group, hgroup, hdescribes⟩ := exists_of_forall₂_right hfound.described hc
  have hcomponent := (hfound.components {a | a ∈ group}).mp ⟨group, hgroup, rfl⟩
  rw [isComponent_perm hperm] at hcomponent
  obtain ⟨group', hgroup', heq⟩ := (hfound'.components {a | a ∈ group}).mpr hcomponent
  have hsame : group.Perm group' :=
    (List.perm_ext_iff_of_nodup (hfound.nodup group hgroup) (hfound'.nodup group' hgroup')).mpr
      fun a => Set.ext_iff.mp heq a
  obtain ⟨c', hc', hdescribes'⟩ := exists_of_forall₂ hfound'.described hgroup'
  exact ⟨c', hc', hdescribes.same hdescribes' hsame⟩

end CampaignDetector

/-- A burst that two hosts report, and later a third. -/
def networkBurst (alertId hostname : String) (timestampMs : ℕ) : FleetAlert where
  alertId := alertId
  hostname := hostname
  timestampMs := timestampMs
  score := 4
  level := "Severe"
  reasons := ["network burst"]
  mitreTechniques := ["T1071"]

theorem campaigns_exact_burst :
    ∃ found, CampaignDetector.Clusters CampaignDetector.default
      [networkBurst "a1" "host-a" 1000, networkBurst "a2" "host-b" 2000,
        networkBurst "a3" "host-c" 9000000]
      (CampaignDetector.detect insertionOrder CampaignDetector.default
        [networkBurst "a1" "host-a" 1000, networkBurst "a2" "host-b" 2000,
          networkBurst "a3" "host-c" 9000000]).2 found :=
  (CampaignDetector.campaigns_exact insertionOrder CampaignDetector.default _
    (by decide +kernel)).1

end Wardex.Fleet
