import Wardex.Lib.DepthFirst
import Wardex.Lib.Grouping
import Wardex.Lib.Windows
import Mathlib.Algebra.Order.Field.Rat
import Mathlib.Data.String.Basic

/-! Lateral movement: paths of remote connections from host to host.  From every host that connects
to others a depth-first search follows the successful connections; a host that it has entered on a
short route it does not enter again on a longer one.  Scores are exact rationals. -/

namespace Wardex.Fleet

open Wardex.Lib

structure LateralConfig where
  windowMs : ℕ
  minHops : ℕ
  scoreBoost : ℚ
  credentialReuseThreshold : ℕ

def LateralConfig.default : LateralConfig where
  windowMs := 3600000
  minHops := 2
  scoreBoost := 3
  credentialReuseThreshold := 3

inductive RemoteProtocol where
  | ssh
  | rdp
  | smb
  | winRm
  | psExec
  | wmi
  | other (name : String)
deriving DecidableEq

structure RemoteConnection where
  timestampMs : ℕ
  srcHost : String
  dstHost : String
  protocol : RemoteProtocol
  credential : Option String
  srcAgent : Option String
  dstAgent : Option String
  authSuccess : Bool
  process : Option String
deriving DecidableEq

structure LateralHop where
  timestampMs : ℕ
  srcHost : String
  dstHost : String
  protocol : RemoteProtocol
  credential : Option String
deriving DecidableEq

inductive LateralPattern where
  | credentialReuse
  | passTheHash
  | sequentialCompromise
  | adminToolAbuse
  | fanOut
deriving DecidableEq

/-- The name that `{:?}` writes. -/
def LateralPattern.debug : LateralPattern → String
  | credentialReuse => "CredentialReuse"
  | passTheHash => "PassTheHash"
  | sequentialCompromise => "SequentialCompromise"
  | adminToolAbuse => "AdminToolAbuse"
  | fanOut => "FanOut"

structure LateralPath where
  hops : List LateralHop
  credentialsUsed : List String
  durationMs : ℕ
  riskScore : ℚ
  patterns : List LateralPattern
  mitreTechniques : List String

structure LateralSummary where
  activePaths : List LateralPath
  totalConnections : ℕ
  uniqueCredentials : ℕ
  hostsInvolved : ℕ
  highestRisk : ℚ

structure LateralMovementDetector where
  config : LateralConfig
  connections : List RemoteConnection

/-- The hop that a connection makes. -/
def RemoteConnection.hop (c : RemoteConnection) : LateralHop where
  timestampMs := c.timestampMs
  srcHost := c.srcHost
  dstHost := c.dstHost
  protocol := c.protocol
  credential := c.credential

/-- For each host its successful connections to others, in some order. -/
structure Adjacency (successful : List RemoteConnection) where
  of : String → List RemoteConnection
  perm : ∀ host, (of host).Perm (successful.filter fun c => c.srcHost = host)

/-- In the order in which they were recorded. -/
def Adjacency.recorded (successful : List RemoteConnection) : Adjacency successful where
  of host := successful.filter fun c => c.srcHost = host
  perm _ := List.Perm.refl _

/-- The same connections, recorded in another order. -/
def Adjacency.reordered {successful connections : List RemoteConnection}
    (h : connections.Perm successful) : Adjacency successful where
  of host := connections.filter fun c => c.srcHost = host
  perm _ := h.filter _

namespace Adjacency

variable {successful : List RemoteConnection} (adjacency : Adjacency successful)

theorem mem_of {host : String} {c : RemoteConnection} :
    c ∈ adjacency.of host ↔ c ∈ successful ∧ c.srcHost = host := by
  rw [(adjacency.perm host).mem_iff, List.mem_filter, decide_eq_true_eq]

def graph : FiniteGraph String where
  next host := (adjacency.of host).map RemoteConnection.dstHost
  bound := successful.map RemoteConnection.dstHost
  next_mem host dst hdst := by
    obtain ⟨c, hc, rfl⟩ := List.mem_map.mp hdst
    exact List.mem_map_of_mem (adjacency.mem_of.mp hc).1

/-- The stack holds hosts with the hops that lead there. -/
def hopping : Carrying adjacency.graph (List LateralHop) where
  offers host hops := (adjacency.of host).map fun c => (c.dstHost, hops ++ [c.hop])
  targets host hops := by
    rw [List.map_map]
    rfl

/-- The hosts that the search from `start` enters, with the hops that led it there. -/
def entered (start : String) : List (String × List LateralHop) :=
  (adjacency.hopping.dive ⟨[], [(start, [])], []⟩).entered

/-- The routes of enough hops that the search from `start` meets. -/
def routes (minHops : ℕ) (start : String) : List (List LateralHop) :=
  (adjacency.entered start).flatMap fun entry =>
    ((adjacency.of entry.1).map fun c => entry.2 ++ [c.hop]).filter fun hops =>
      minHops ≤ hops.length

end Adjacency

namespace LateralMovementDetector

def record (detector : LateralMovementDetector) (conn : RemoteConnection) :
    LateralMovementDetector :=
  { detector with connections := detector.connections ++ [conn] }

def evictStale (detector : LateralMovementDetector) (nowMs : ℕ) : LateralMovementDetector :=
  let cutoff := nowMs - detector.config.windowMs
  { detector with connections := detector.connections.filter fun c => cutoff ≤ c.timestampMs }

def successful (detector : LateralMovementDetector) : List RemoteConnection :=
  detector.connections.filter RemoteConnection.authSuccess

/-- The hosts between which a credential was used. -/
def credentialHosts (successful : List RemoteConnection) (credential : String) : Finset String :=
  ((successful.filter fun c => c.credential = some credential).flatMap fun c =>
    [c.srcHost, c.dstHost]).toFinset

/-- From the first of the hops to the last of them in time. -/
def spanMs (hops : List LateralHop) : ℕ :=
  (hops.map LateralHop.timestampMs).max?.getD 0 - (hops.map LateralHop.timestampMs).min?.getD 0

def patternsOf (detector : LateralMovementDetector) (start : String) (hops : List LateralHop) :
    List LateralPattern :=
  let creds := hops.filterMap LateralHop.credential
  let reused := creds.any fun cred =>
    detector.config.credentialReuseThreshold ≤ (credentialHosts detector.successful cred).card
  let tools := hops.any fun hop => hop.protocol = .psExec || hop.protocol = .wmi
  let destinations := (((Adjacency.recorded detector.successful).of start).map
    RemoteConnection.dstHost).toFinset
  let patterns :=
    (if reused then [LateralPattern.credentialReuse] else []) ++
    (if tools then [LateralPattern.adminToolAbuse] else []) ++
    (if spanMs hops < 600000 then [LateralPattern.sequentialCompromise] else []) ++
    (if 3 ≤ destinations.card then [LateralPattern.fanOut] else [])
  (patterns.insertionSort (Rising LateralPattern.debug)).dedup

def pathOf (detector : LateralMovementDetector) (start : String) (hops : List LateralHop) :
    LateralPath where
  hops := hops
  credentialsUsed := hops.filterMap LateralHop.credential
  durationMs := spanMs hops
  riskScore := min (hops.length * 15 + (detector.patternsOf start hops).length * 10) 100
  patterns := detector.patternsOf start hops
  mitreTechniques :=
    ["T1021"] ++
    (if .passTheHash ∈ detector.patternsOf start hops then ["T1550"] else []) ++
    (if .adminToolAbuse ∈ detector.patternsOf start hops then ["T1569"] else [])

def analyze (order : IterationOrder String) (detector : LateralMovementDetector) :
    LateralSummary :=
  let adjacency := Adjacency.recorded detector.successful
  let starts := order.order (detector.successful.map RemoteConnection.srcHost).dedup
  let paths := starts.flatMap fun start =>
    (adjacency.routes detector.config.minHops start).map (detector.pathOf start)
  let hosts := (starts.flatMap fun start => (adjacency.entered start).flatMap fun entry =>
    entry.1 :: (adjacency.of entry.1).map RemoteConnection.dstHost).toFinset
  let sorted := paths.mergeSort fun a b => b.riskScore ≤ a.riskScore
  { activePaths := sorted
    totalConnections := detector.successful.length
    uniqueCredentials := (detector.successful.filterMap RemoteConnection.credential).toFinset.card
    hostsInvolved := hosts.card
    highestRisk := sorted.head?.elim 0 LateralPath.riskScore }

end LateralMovementDetector

/-! ### Routes -/

/-- The hops are recorded, and each starts where the one before it ended. -/
def Route (successful : List RemoteConnection) : String → List LateralHop → String → Prop
  | start, [], last => start = last
  | start, hop :: hops, last =>
    (∃ c ∈ successful, c.hop = hop) ∧ hop.srcHost = start ∧ Route successful hop.dstHost hops last

/-- The hosts on the way, the first one included. -/
def hostsOn (start : String) (hops : List LateralHop) : List String :=
  start :: hops.map LateralHop.dstHost

section

variable {successful : List RemoteConnection} {start last : String} {hop : LateralHop}
  {hops : List LateralHop}

theorem route_concat : Route successful start (hops ++ [hop]) last ↔
    Route successful start hops hop.srcHost ∧ (∃ c ∈ successful, c.hop = hop) ∧
      hop.dstHost = last := by
  induction hops generalizing start with
  | nil =>
    simp only [List.nil_append, Route]
    constructor
    · rintro ⟨hrecorded, rfl, rfl⟩
      exact ⟨rfl, hrecorded, rfl⟩
    · rintro ⟨rfl, hrecorded, rfl⟩
      exact ⟨hrecorded, rfl, rfl⟩
  | cons first hops ih => simp only [List.cons_append, Route, ih, and_assoc]

theorem hostsOn_concat : hostsOn start (hops ++ [hop]) = hostsOn start hops ++ [hop.dstHost] := by
  rw [hostsOn, List.map_append]
  rfl

/-- A route on which no host comes twice, of almost enough hops, and one connection further on. -/
def LongRoute (successful : List RemoteConnection) (minHops : ℕ) (start : String) : Prop :=
  ∃ hops last, Route successful start hops last ∧ (hostsOn start hops).Nodup ∧
    (∃ c ∈ successful, c.srcHost = last) ∧ minHops ≤ hops.length + 1

/-- A search whose entries are routes on which no host comes twice. -/
structure Routed (successful : List RemoteConnection) (start : String)
    (s : StackState String (List LateralHop)) : Prop where
  entered : ∀ e ∈ s.entered, Route successful start e.2 e.1 ∧ (hostsOn start e.2).Nodup
  stacked : ∀ e ∈ s.stack, Route successful start e.2 e.1 ∧
    ∃ before, hostsOn start e.2 = before ++ [e.1] ∧ before.Nodup ∧ before ⊆ s.visited

namespace Adjacency

variable (adjacency : Adjacency successful)

theorem routed_enter {s : StackState String (List LateralHop)} {host : String}
    {rest : List (String × List LateralHop)} (h : Routed successful start s)
    (hstack : s.stack = (host, hops) :: rest) (hhost : host ∉ s.visited) :
    Routed successful start (adjacency.hopping.enter host hops rest s) := by
  obtain ⟨hroute, before, hhosts, hnodup, hsub⟩ :=
    h.stacked (host, hops) (hstack ▸ List.mem_cons_self)
  have hdistinct : (before ++ [host]).Nodup :=
    List.nodup_append.mpr ⟨hnodup, List.nodup_singleton host, fun x hx y hy heq =>
      hhost (List.mem_singleton.mp hy ▸ heq ▸ hsub hx)⟩
  constructor
  · intro e he
    rcases List.mem_append.mp he with hold | hnew
    · exact h.entered e hold
    · obtain rfl := List.mem_singleton.mp hnew
      exact ⟨hroute, hhosts ▸ hdistinct⟩
  · intro e he
    rcases Carrying.mem_stack_enter.mp he with ⟨hoffer, -⟩ | hrest
    · obtain ⟨c, hc, rfl⟩ := List.mem_map.mp hoffer
      obtain ⟨hmem, hsrc⟩ := adjacency.mem_of.mp hc
      refine ⟨route_concat.mpr ⟨?_, ⟨c, hmem, rfl⟩, rfl⟩, before ++ [host], ?_, hdistinct, ?_⟩
      · have hat : c.hop.srcHost = host := hsrc
        rw [hat]
        exact hroute
      · rw [hostsOn_concat, hhosts]
        rfl
      · exact List.append_subset.mpr ⟨fun x hx => List.mem_append_left _ (hsub hx),
          List.subset_append_right _ _⟩
    · obtain ⟨hroute', before', hhosts', hnodup', hsub'⟩ :=
        h.stacked e (hstack ▸ List.mem_cons_of_mem _ hrest)
      exact ⟨hroute', before', hhosts', hnodup', fun x hx => List.mem_append_left _ (hsub' hx)⟩

theorem routed_entered (start : String) :
    ∀ e ∈ adjacency.entered start, Route successful start e.2 e.1 ∧ (hostsOn start e.2).Nodup := by
  have hinit : Routed successful start ⟨[], [(start, [])], []⟩ := by
    refine ⟨nofun, fun e he => ?_⟩
    obtain rfl := List.mem_singleton.mp he
    exact ⟨rfl, [], rfl, List.nodup_nil, List.nil_subset _⟩
  refine (Carrying.dive_induction (P := Routed successful start) ?_ ?_ hinit).1.entered
  · exact fun s host hops rest h hstack _ =>
      ⟨h.entered, fun e he => h.stacked e (hstack ▸ List.mem_cons_of_mem _ he)⟩
  · exact fun s host hops rest h hstack hhost => adjacency.routed_enter h hstack hhost

/-- Everything within reach is entered. -/
theorem exists_entered (hreach : adjacency.graph.Reaches start last) :
    ∃ e ∈ adjacency.entered start, e.1 = last := by
  have hroot : start ∉ ([] : List String) := List.not_mem_nil
  obtain ⟨hdives, hstack⟩ :=
    Carrying.dives_dive (c := adjacency.hopping) List.nodup_nil hroot []
  have hmem := ((hdives.explores hstack).mem_iff rfl fun x hx => absurd hx List.not_mem_nil).mpr
    ⟨hreach, List.not_mem_nil⟩
  exact List.mem_map.mp hmem

/-- The search enters a host that is connected to others, by a route of almost enough hops. -/
def Deep (minHops : ℕ) (start : String) : Prop :=
  ∃ e ∈ adjacency.entered start, adjacency.of e.1 ≠ [] ∧ minHops ≤ e.2.length + 1

theorem mem_routes {minHops : ℕ} : hops ∈ adjacency.routes minHops start ↔
    ∃ e ∈ adjacency.entered start, ∃ c ∈ adjacency.of e.1,
      e.2 ++ [c.hop] = hops ∧ minHops ≤ e.2.length + 1 := by
  simp only [routes, List.mem_flatMap, List.mem_filter, List.mem_map, decide_eq_true_eq]
  constructor
  · rintro ⟨e, he, ⟨c, hc, rfl⟩, hlong⟩
    rw [List.length_append] at hlong
    exact ⟨e, he, c, hc, rfl, hlong⟩
  · rintro ⟨e, he, c, hc, rfl, hlong⟩
    refine ⟨e, he, ⟨c, hc, rfl⟩, ?_⟩
    rw [List.length_append]
    exact hlong

theorem exists_routes_iff {minHops : ℕ} :
    (∃ hops, hops ∈ adjacency.routes minHops start) ↔ adjacency.Deep minHops start := by
  constructor
  · rintro ⟨hops, hmem⟩
    obtain ⟨e, he, c, hc, -, hlong⟩ := adjacency.mem_routes.mp hmem
    exact ⟨e, he, List.ne_nil_of_mem hc, hlong⟩
  · rintro ⟨e, he, hne, hlong⟩
    obtain ⟨c, hc⟩ := List.exists_mem_of_ne_nil _ hne
    exact ⟨_, adjacency.mem_routes.mpr ⟨e, he, c, hc, rfl, hlong⟩⟩

theorem of_ne_nil_iff {host : String} :
    adjacency.of host ≠ [] ↔ ∃ c ∈ successful, c.srcHost = host := by
  constructor
  · intro hne
    obtain ⟨c, hc⟩ := List.exists_mem_of_ne_nil _ hne
    exact ⟨c, adjacency.mem_of.mp hc⟩
  · rintro ⟨c, hc, hsrc⟩
    exact List.ne_nil_of_mem (adjacency.mem_of.mpr ⟨hc, hsrc⟩)

/-- What the search meets is there. -/
theorem Deep.longRoute {minHops : ℕ} (h : adjacency.Deep minHops start) :
    LongRoute successful minHops start := by
  obtain ⟨e, he, hne, hlong⟩ := h
  obtain ⟨hroute, hnodup⟩ := adjacency.routed_entered start e he
  exact ⟨e.2, e.1, hroute, hnodup, adjacency.of_ne_nil_iff.mp hne, hlong⟩

/-! ### Other orders -/

/-- The connections of `cs` come last at their hosts. -/
def following (cs : List RemoteConnection) (hcs : cs ⊆ successful) : Adjacency successful where
  of host :=
    match cs.find? fun c => c.srcHost = host with
    | some c => ((successful.filter fun c => c.srcHost = host).erase c) ++ [c]
    | none => successful.filter fun c => c.srcHost = host
  perm host := by
    cases hfind : cs.find? fun c => c.srcHost = host with
    | none => exact List.Perm.refl _
    | some c =>
      have hsrc := List.find?_some hfind
      have hmem : c ∈ successful.filter fun c => c.srcHost = host :=
        List.mem_filter.mpr ⟨hcs (List.mem_of_find?_eq_some hfind), hsrc⟩
      exact (List.perm_append_singleton c _).trans (List.perm_cons_erase hmem).symm

theorem following_of {cs : List RemoteConnection} (hcs : cs ⊆ successful)
    (hnodup : (cs.map RemoteConnection.srcHost).Nodup) {c : RemoteConnection} (hc : c ∈ cs) :
    ∃ l, (following cs hcs).of c.srcHost = l ++ [c] := by
  have hfind : (cs.find? fun d => d.srcHost = c.srcHost) = some c := by
    cases hfind : cs.find? fun d => d.srcHost = c.srcHost with
    | none => exact absurd (decide_eq_true rfl) (List.find?_eq_none.mp hfind c hc)
    | some d =>
      have hsrc := List.find?_some hfind
      have hsame : d.srcHost = c.srcHost := of_decide_eq_true hsrc
      rw [List.inj_on_of_nodup_map hnodup (List.mem_of_find?_eq_some hfind) hc hsame]
  have hof : (following cs hcs).of c.srcHost =
      ((successful.filter fun d => d.srcHost = c.srcHost).erase c) ++ [c] := by
    unfold following
    dsimp only
    rw [hfind]
  exact ⟨_, hof⟩

/-- A search in which the connections of a route come last follows the route. -/
theorem exists_followed {cs : List RemoteConnection} {host : String}
    {s : StackState String (List LateralHop)} {rest : List (String × List LateralHop)}
    (hlast : ∀ c ∈ cs, ∃ l, adjacency.of c.srcHost = l ++ [c])
    (hroute : Route successful host (cs.map RemoteConnection.hop) last)
    (hnodup : (s.visited ++ hostsOn host (cs.map RemoteConnection.hop)).Nodup)
    (hstack : s.stack = (host, hops) :: rest) :
    ∃ e ∈ (adjacency.hopping.dive s).entered,
      e.1 = last ∧ e.2.length = hops.length + cs.length := by
  induction cs generalizing host hops s rest with
  | nil =>
    obtain rfl : host = last := hroute
    have hnew : host ∉ s.visited := fun hmem =>
      (List.nodup_append.mp hnodup).2.2 host hmem host List.mem_cons_self rfl
    rw [Carrying.dive_enter hstack hnew]
    refine ⟨(host, hops), Carrying.entered_subset_dive _ ?_, rfl, rfl⟩
    exact List.mem_append_right _ (List.mem_singleton_self _)
  | cons c cs ih =>
    obtain ⟨hfirst, hrest⟩ := List.forall_mem_cons.mp hlast
    obtain ⟨-, hsrc, hroute⟩ := hroute
    have hnew : host ∉ s.visited := fun hmem =>
      (List.nodup_append.mp hnodup).2.2 host hmem host List.mem_cons_self rfl
    obtain ⟨l, hl⟩ := hfirst
    have hat : c.srcHost = host := hsrc
    rw [hat] at hl
    have hoffers : adjacency.hopping.offers host hops =
        (l.map fun d => (d.dstHost, hops ++ [d.hop])) ++ [(c.dstHost, hops ++ [c.hop])] := by
      have hall : adjacency.hopping.offers host hops =
          (adjacency.of host).map fun d => (d.dstHost, hops ++ [d.hop]) := rfl
      rw [hall, hl, List.map_append]
      rfl
    have hmarks :
        (s.visited ++ [host] ++ hostsOn c.dstHost (cs.map RemoteConnection.hop)).Nodup := by
      rw [List.append_assoc]
      exact hnodup
    have hnext : c.dstHost ∉ s.visited ++ [host] := fun hmem =>
      (List.nodup_append.mp hmarks).2.2 _ hmem _ List.mem_cons_self rfl
    obtain ⟨rest', hstack'⟩ := Carrying.stack_enter_concat rest hoffers hnext
    rw [Carrying.dive_enter hstack hnew]
    obtain ⟨e, he, hend, hlength⟩ := ih hrest hroute hmarks hstack'
    refine ⟨e, he, hend, ?_⟩
    rw [hlength, List.length_append, List.length_singleton, List.length_cons]
    omega

theorem exists_connections (hroute : Route successful start hops last) :
    ∃ cs, cs ⊆ successful ∧ cs.map RemoteConnection.hop = hops := by
  induction hops generalizing start with
  | nil => exact ⟨[], List.nil_subset _, rfl⟩
  | cons hop hops ih =>
    obtain ⟨⟨c, hc, rfl⟩, -, hrest⟩ := hroute
    obtain ⟨cs, hcs, rfl⟩ := ih hrest
    exact ⟨c :: cs, List.cons_subset.mpr ⟨hc, hcs⟩, rfl⟩

/-- The hosts where the hops of a route start are those on the way but the last. -/
theorem map_srcHost (hroute : Route successful start hops last) :
    hops.map LateralHop.srcHost ++ [last] = hostsOn start hops := by
  induction hops generalizing start with
  | nil =>
    obtain rfl : start = last := hroute
    rfl
  | cons hop hops ih =>
    obtain ⟨-, rfl, hrest⟩ := hroute
    rw [List.map_cons, List.cons_append, ih hrest]
    rfl

/-- Where there is a long route, a search in some order takes it. -/
theorem exists_deep {minHops : ℕ} (h : LongRoute successful minHops start) :
    ∃ adjacency : Adjacency successful, adjacency.Deep minHops start := by
  obtain ⟨hops, last, hroute, hnodup, hfurther, hlong⟩ := h
  obtain ⟨cs, hcs, rfl⟩ := exists_connections hroute
  have hsources : (cs.map RemoteConnection.srcHost).Nodup := by
    have hall := hnodup
    rw [← map_srcHost hroute, List.map_map] at hall
    exact (List.nodup_append.mp hall).1
  obtain ⟨e, he, rfl, hlength⟩ := (following cs hcs).exists_followed (s := ⟨[], [(start, [])], []⟩)
    (fun c hc => following_of hcs hsources hc) hroute hnodup rfl
  refine ⟨following cs hcs, e, he, (of_ne_nil_iff _).mpr hfurther, ?_⟩
  rw [hlength, List.length_nil, Nat.zero_add]
  rwa [List.length_map] at hlong

theorem entered_congr {successful' : List RemoteConnection} {adjacency : Adjacency successful}
    {adjacency' : Adjacency successful'} (h : ∀ host, adjacency.of host = adjacency'.of host)
    (start : String) : adjacency.entered start = adjacency'.entered start := by
  rw [entered, entered, Carrying.dive_congr fun host hops => ?_]
  exact congrArg (List.map _) (h host)

theorem deep_congr {successful' : List RemoteConnection} {adjacency : Adjacency successful}
    {adjacency' : Adjacency successful'} (h : ∀ host, adjacency.of host = adjacency'.of host)
    {minHops : ℕ} : adjacency.Deep minHops start ↔ adjacency'.Deep minHops start := by
  simp only [Deep, entered_congr h, h]

/-- Every order of the connections of each host is an order in which they may be recorded. -/
theorem exists_recorded (adjacency : Adjacency successful) :
    ∃ successful' : List RemoteConnection, successful'.Perm successful ∧
      ∀ host, (recorded successful').of host = adjacency.of host := by
  have hall (host : String) :
      ((adjacency.of host).filter fun c => c.srcHost = host) = adjacency.of host :=
    List.filter_eq_self.mpr fun c hc => decide_eq_true (adjacency.mem_of.mp hc).2
  have hnone {host key : String} (hne : key ≠ host) :
      ((adjacency.of key).filter fun c => c.srcHost = host) = [] := by
    refine List.filter_eq_nil_iff.mpr fun c hc hsrc => hne ?_
    exact (adjacency.mem_of.mp hc).2.symm.trans (of_decide_eq_true hsrc)
  have hfilter (host : String) : (((successful.map RemoteConnection.srcHost).dedup.flatMap
      adjacency.of).filter fun c => c.srcHost = host) = adjacency.of host := by
    rw [List.filter_flatMap]
    by_cases hhost : host ∈ (successful.map RemoteConnection.srcHost).dedup
    · rw [flatMap_eq_of_mem (List.nodup_dedup _) hhost fun key _ hne => hnone hne, hall]
    · have hempty : adjacency.of host = [] := by
        by_contra hne
        obtain ⟨c, hc, hsrc⟩ := adjacency.of_ne_nil_iff.mp hne
        exact hhost (List.mem_dedup.mpr (List.mem_map.mpr ⟨c, hc, hsrc⟩))
      rw [hempty, List.flatMap_eq_nil_iff]
      exact fun key hkey => hnone fun heq => hhost (heq ▸ hkey)
  refine ⟨(successful.map RemoteConnection.srcHost).dedup.flatMap adjacency.of, ?_, hfilter⟩
  refine List.perm_iff_count.mpr fun c => ?_
  have hown (l : List RemoteConnection) :
      (l.filter fun d => d.srcHost = c.srcHost).count c = l.count c :=
    List.count_filter (p := fun d : RemoteConnection => decide (d.srcHost = c.srcHost))
      (decide_eq_true rfl)
  rw [← hown, hfilter, (adjacency.perm c.srcHost).count_eq, hown]

end Adjacency

end

/-! ### What is reported -/

def LateralSummary.StartsAt (summary : LateralSummary) (host : String) : Prop :=
  ∃ path ∈ summary.activePaths, path.hops.head?.map LateralHop.srcHost = some host

namespace LateralMovementDetector

variable {detector : LateralMovementDetector} {order : IterationOrder String} {start last : String}
  {hops : List LateralHop}

def withConnections (detector : LateralMovementDetector) (connections : List RemoteConnection) :
    LateralMovementDetector := { detector with connections := connections }

/-- The paths are routes, every host with a long enough route to other hosts is the start of one,
and the starts do not depend on the order of the records. -/
structure FindsRoutes (order : IterationOrder String) (detector : LateralMovementDetector) :
    Prop where
  sound : ∀ path ∈ (detector.analyze order).activePaths,
    detector.config.minHops ≤ path.hops.length ∧
      ∃ start last, Route detector.successful start path.hops last
  complete : ∀ start hops last, Route detector.successful start hops last →
    (hostsOn start hops).Nodup → detector.config.minHops ≤ hops.length →
      (detector.analyze order).StartsAt start
  orderless : ∀ order' connections', connections'.Perm detector.connections → ∀ host,
    ((detector.withConnections connections').analyze order').StartsAt host ↔
      (detector.analyze order).StartsAt host

/-- In whatever order the connections of each host are followed, a search goes deep from every host
from which there is a long route. -/
def NeverBlocked (detector : LateralMovementDetector) : Prop :=
  ∀ start, LongRoute detector.successful detector.config.minHops start →
    ∀ adjacency : Adjacency detector.successful, adjacency.Deep detector.config.minHops start

theorem mem_activePaths {path : LateralPath} :
    path ∈ (detector.analyze order).activePaths ↔
      ∃ start ∈ (detector.successful.map RemoteConnection.srcHost),
        ∃ hops ∈ (Adjacency.recorded detector.successful).routes detector.config.minHops start,
          detector.pathOf start hops = path := by
  rw [analyze]
  simp only [List.mem_mergeSort, List.mem_flatMap, List.mem_map (f := detector.pathOf _),
    (order.perm _).mem_iff, List.mem_dedup]

theorem route_of_mem_routes (adjacency : Adjacency detector.successful) {minHops : ℕ}
    (h : hops ∈ adjacency.routes minHops start) :
    minHops ≤ hops.length ∧ hops.head?.map LateralHop.srcHost = some start ∧
      ∃ last, Route detector.successful start hops last := by
  obtain ⟨e, he, c, hc, rfl, hlong⟩ := adjacency.mem_routes.mp h
  obtain ⟨hmem, hsrc⟩ := adjacency.mem_of.mp hc
  have hat : c.hop.srcHost = e.1 := hsrc
  have hroute : Route detector.successful start (e.2 ++ [c.hop]) c.dstHost :=
    route_concat.mpr ⟨hat.symm ▸ (adjacency.routed_entered start e he).1, ⟨c, hmem, rfl⟩, rfl⟩
  refine ⟨by rw [List.length_append]; exact hlong, ?_, c.dstHost, hroute⟩
  cases hhops : e.2 ++ [c.hop] with
  | nil => exact absurd hhops (by simp)
  | cons hop hops =>
    rw [hhops] at hroute
    rw [List.head?_cons, Option.map_some, hroute.2.1]

/-- A host is a start if the search from it goes deep. -/
theorem startsAt_analyze : (detector.analyze order).StartsAt start ↔
    (Adjacency.recorded detector.successful).Deep detector.config.minHops start := by
  rw [← Adjacency.exists_routes_iff]
  constructor
  · rintro ⟨path, hpath, hhead⟩
    obtain ⟨host, -, hops, hhops, rfl⟩ := mem_activePaths.mp hpath
    have hstart := (route_of_mem_routes _ hhops).2.1
    obtain rfl : host = start := Option.some.inj (hstart.symm.trans hhead)
    exact ⟨hops, hhops⟩
  · rintro ⟨hops, hhops⟩
    obtain ⟨-, hhead, last, hroute⟩ := route_of_mem_routes _ hhops
    refine ⟨_, mem_activePaths.mpr ⟨start, ?_, hops, hhops, rfl⟩, hhead⟩
    -- a host from which a route goes out is the source of a connection
    cases hops with
    | nil => cases hhead
    | cons hop hops =>
      obtain ⟨⟨c, hc, rfl⟩, hsrc, -⟩ := hroute
      exact List.mem_map.mpr ⟨c, hc, hsrc⟩

/-- The records in another order are an order of the connections of each host. -/
theorem startsAt_reordered {connections : List RemoteConnection}
    (h : connections.Perm detector.connections) (order : IterationOrder String) (host : String) :
    ((detector.withConnections connections).analyze order).StartsAt host ↔
      (Adjacency.reordered (h.filter RemoteConnection.authSuccess)).Deep
        detector.config.minHops host := by
  have hof (host : String) :
      (Adjacency.recorded (detector.withConnections connections).successful).of host =
        (Adjacency.reordered (h.filter RemoteConnection.authSuccess)).of host := rfl
  rw [startsAt_analyze]
  exact Adjacency.deep_congr hof

/-- And every order of the connections of each host comes from an order of the records. -/
theorem exists_startsAt (adjacency : Adjacency detector.successful) :
    ∃ connections : List RemoteConnection, connections.Perm detector.connections ∧
      ∀ order host, ((detector.withConnections connections).analyze order).StartsAt host ↔
        adjacency.Deep detector.config.minHops host := by
  obtain ⟨successful', hperm, hof⟩ := adjacency.exists_recorded
  let failed := detector.connections.filter fun c => !c.authSuccess
  have hconnections : (successful' ++ failed).Perm detector.connections :=
    (hperm.append_right _).trans (List.filter_append_perm _ _)
  have hsuccessful : (detector.withConnections (successful' ++ failed)).successful =
      successful' := by
    have hall : successful'.filter RemoteConnection.authSuccess = successful' := by
      refine List.filter_eq_self.mpr fun c hc => ?_
      exact (List.mem_filter.mp (hperm.subset hc)).2
    have hnone : failed.filter RemoteConnection.authSuccess = [] := by
      refine List.filter_eq_nil_iff.mpr fun c hc hauth => ?_
      have hfailed := (List.mem_filter.mp hc).2
      rw [hauth] at hfailed
      cases hfailed
    rw [successful, withConnections, List.filter_append, hall, hnone, List.append_nil]
  refine ⟨successful' ++ failed, hconnections, fun order host => ?_⟩
  rw [startsAt_analyze, hsuccessful]
  exact Adjacency.deep_congr hof

theorem longRoute_of_route (hmin : 1 ≤ detector.config.minHops)
    (hroute : Route detector.successful start hops last) (hnodup : (hostsOn start hops).Nodup)
    (hlong : detector.config.minHops ≤ hops.length) :
    LongRoute detector.successful detector.config.minHops start := by
  rcases List.eq_nil_or_concat hops with rfl | ⟨init, hop, rfl⟩
  · exact absurd (hmin.trans hlong) (Nat.not_succ_le_zero 0)
  · rw [List.concat_eq_append] at hroute hnodup hlong
    obtain ⟨hinit, ⟨c, hc, rfl⟩, -⟩ := route_concat.mp hroute
    rw [hostsOn_concat] at hnodup
    rw [List.length_append] at hlong
    exact ⟨init, _, hinit, (List.nodup_append.mp hnodup).1, ⟨c, hc, rfl⟩, hlong⟩

theorem analyze_sound : ∀ path ∈ (detector.analyze order).activePaths,
    detector.config.minHops ≤ path.hops.length ∧
      ∃ start last, Route detector.successful start path.hops last := by
  intro path hpath
  obtain ⟨start, -, hops, hhops, rfl⟩ := mem_activePaths.mp hpath
  obtain ⟨hlong, -, last, hroute⟩ := route_of_mem_routes _ hhops
  exact ⟨hlong, start, last, hroute⟩

theorem reaches_of_route {successful : List RemoteConnection} (adjacency : Adjacency successful)
    (h : Route successful start hops last) : adjacency.graph.Reaches start last := by
  induction hops generalizing start with
  | nil =>
    obtain rfl : start = last := h
    exact .refl
  | cons hop hops ih =>
    obtain ⟨⟨c, hc, rfl⟩, hsrc, hrest⟩ := h
    refine .head (List.mem_map.mpr ⟨c, adjacency.mem_of.mpr ⟨hc, hsrc⟩, rfl⟩) (ih hrest)

/-- A host that is connected to others and cannot be reached on a short route is enough. -/
theorem deep_of_far {successful : List RemoteConnection} (adjacency : Adjacency successful)
    {minHops : ℕ} (hroute : Route successful start hops last)
    (hfurther : ∃ c ∈ successful, c.srcHost = last)
    (hfar : ∀ hops', Route successful start hops' last → minHops ≤ hops'.length + 1) :
    adjacency.Deep minHops start := by
  obtain ⟨e, he, rfl⟩ := adjacency.exists_entered (reaches_of_route adjacency hroute)
  exact ⟨e, he, adjacency.of_ne_nil_iff.mpr hfurther,
    hfar e.2 (adjacency.routed_entered start e he).1⟩

/-- Paths of up to two hops are always found. -/
theorem neverBlocked_of_minHops_le_two (h : detector.config.minHops ≤ 2) :
    NeverBlocked detector := by
  rintro start ⟨hops, last, hroute, hnodup, hfurther, hlong⟩ adjacency
  refine deep_of_far adjacency hroute hfurther fun hops' hroute' => ?_
  cases hops' with
  | cons hop hops' =>
    rw [List.length_cons]
    omega
  | nil =>
    obtain rfl : start = last := hroute'
    cases hops with
    | nil => exact hlong
    | cons hop hops =>
      -- a route that comes back to its start is none
      rw [← Adjacency.map_srcHost hroute, List.map_cons, List.cons_append, hroute.2.1] at hnodup
      exact absurd (List.mem_append_right _ (List.mem_singleton_self start))
        (List.nodup_cons.mp hnodup).1

end LateralMovementDetector

/-- A successful login. -/
def login (src dst : String) : RemoteConnection where
  timestampMs := 1000
  srcHost := src
  dstHost := dst
  protocol := .ssh
  credential := none
  srcAgent := none
  dstAgent := none
  authSuccess := true
  process := none

/-- Two ways from `s` to `b`. -/
def blockedLogins : List RemoteConnection :=
  [login "s" "a", login "s" "b", login "a" "b", login "b" "c"]

def blockedDetector : LateralMovementDetector where
  config := { LateralConfig.default with minHops := 3 }
  connections := blockedLogins

/-- The host `b` is entered on the short way, and nothing is left to be followed from `a`. -/
theorem entered_blockedLogins : (Adjacency.recorded blockedLogins).entered "s" =
    [("s", []), ("b", [(login "s" "b").hop]), ("c", [(login "s" "b").hop, (login "b" "c").hop]),
      ("a", [(login "s" "a").hop])] := by
  let search := (Adjacency.recorded blockedLogins).hopping
  let atS := search.enter "s" [] [] ⟨[], [("s", [])], []⟩
  let atB := search.enter "b" [(login "s" "b").hop] [("a", [(login "s" "a").hop])] atS
  let atC := search.enter "c" [(login "s" "b").hop, (login "b" "c").hop]
    [("a", [(login "s" "a").hop])] atB
  let atA := search.enter "a" [(login "s" "a").hop] [] atC
  have hs : search.dive ⟨[], [("s", [])], []⟩ = search.dive atS :=
    Carrying.dive_enter rfl (by decide)
  have hb : search.dive atS = search.dive atB :=
    Carrying.dive_enter (by decide +kernel) (by decide +kernel)
  have hc : search.dive atB = search.dive atC :=
    Carrying.dive_enter (by decide +kernel) (by decide +kernel)
  have ha : search.dive atC = search.dive atA :=
    Carrying.dive_enter (by decide +kernel) (by decide +kernel)
  have hend : search.dive atA = atA := Carrying.dive_of_nil (by decide +kernel)
  have hall : (Adjacency.recorded blockedLogins).entered "s" = atA.entered :=
    congrArg StackState.entered (hs.trans (hb.trans (hc.trans (ha.trans hend))))
  rw [hall]
  decide +kernel

end Wardex.Fleet
