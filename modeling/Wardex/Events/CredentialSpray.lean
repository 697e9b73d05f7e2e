import Wardex.Lib.Grouping
import Wardex.Lib.Windows
import Mathlib.Data.String.Basic

/-! Credential sprays: one user whose authentication fails on several agents within a window.  The
failures of each user are gone through in windows; what an alert says is what its window holds. -/

namespace Wardex.Events

open Wardex.Lib

structure AuthFailureEvent where
  agentId : String
  username : String
  timestampEpoch : Int64
  sourceIp : Option String

structure CredentialSprayAlert where
  targetAccount : String
  involvedAgents : List String
  agentCount : Nat
  timeWindowSecs : Int64
  firstSeen : Int64
  lastSeen : Int64
  sourceIps : List String
deriving DecidableEq

def saturatingAdd (a b : Int64) : Int64 := .ofIntClamp (a.toInt + b.toInt)

namespace AuthFailureEvent

def time (e : AuthFailureEvent) : ℤ := e.timestampEpoch.toInt

/-- The events of a window that starts at `e`. -/
def inWindow (windowSecs : Int64) (e f : AuthFailureEvent) : Bool :=
  f.timestampEpoch ≤ saturatingAdd e.timestampEpoch windowSecs

end AuthFailureEvent

def agents (events : List AuthFailureEvent) : List String := events.map (·.agentId)

def onManyAgents (minAgents : Nat) (window : List AuthFailureEvent) : Bool :=
  (agents window).dedup.length ≥ minAgents

def sprayAlert (username : String) (windowSecs : Int64)
    (window : AuthFailureEvent × List AuthFailureEvent) : CredentialSprayAlert where
  targetAccount := username
  involvedAgents := sortedKeys (agents window.2)
  agentCount := (agents window.2).dedup.length
  timeWindowSecs := windowSecs
  firstSeen := window.1.timestampEpoch
  lastSeen := (window.2.getLast?.map (·.timestampEpoch)).getD window.1.timestampEpoch
  sourceIps := sortedKeys (window.2.filterMap (·.sourceIp))

theorem onManyAgents_nil {minAgents : Nat} (h : minAgents ≠ 0) :
    onManyAgents minAgents [] = false :=
  decide_eq_false (by simpa [agents] using h)

/-- The loop body for one user. -/
def userAlerts (windowSecs : Int64) {minAgents : Nat} (h : minAgents ≠ 0)
    (group : String × List AuthFailureEvent) : List CredentialSprayAlert :=
  if group.2.length < minAgents then []
  else
    (slide (AuthFailureEvent.inWindow windowSecs) (onManyAgents minAgents) (onManyAgents_nil h)
      (group.2.insertionSort (Rising AuthFailureEvent.time))).map (sprayAlert group.1 windowSecs)

def byUser (events : List AuthFailureEvent) : List (String × List AuthFailureEvent) :=
  groups ascendingOrder (events.map fun e => (e.username, e))

def detectCredentialSpray (events : List AuthFailureEvent) (windowSecs : Int64) (minAgents : Nat) :
    List CredentialSprayAlert :=
  if h : events.isEmpty ∨ minAgents = 0 then []
  else (byUser events).flatMap (userAlerts windowSecs (not_or.mp h).2)

/-! ### One user -/

variable {windowSecs : Int64} {minAgents : Nat}

/-- No timestamp lies behind the end of a window that is cut off at the greatest one. -/
theorem inWindow_iff (h : 0 ≤ windowSecs.toInt) (e f : AuthFailureEvent) :
    e.inWindow windowSecs f = true ↔ f.time ≤ e.time + windowSecs.toInt := by
  have hlower := Int64.minValue_le_toInt e.timestampEpoch
  have hupper := Int64.toInt_le f.timestampEpoch
  rw [AuthFailureEvent.inWindow, decide_eq_true_eq, Int64.le_iff_toInt_le, saturatingAdd,
    AuthFailureEvent.time, AuthFailureEvent.time]
  by_cases hle : e.timestampEpoch.toInt + windowSecs.toInt ≤ Int64.maxValue.toInt
  · rw [Int64.toInt_ofIntClamp (by omega) hle]
  · have hclamp : (Int64.ofIntClamp (e.timestampEpoch.toInt + windowSecs.toInt)).toInt =
        Int64.maxValue.toInt := by
      rw [Int64.ofIntClamp, dif_pos (by omega), dif_neg hle]
    rw [hclamp]
    exact iff_of_true hupper (by omega)

theorem onManyAgents_iff {window : List AuthFailureEvent} :
    onManyAgents minAgents window = true ↔ minAgents ≤ (agents window).dedup.length :=
  decide_eq_true_iff

theorem onManyAgents_of_subset {window window' : List AuthFailureEvent} (hsub : window ⊆ window')
    (h : onManyAgents minAgents window = true) : onManyAgents minAgents window' = true := by
  rw [onManyAgents_iff] at h ⊢
  have hdedup : (agents window).dedup ⊆ (agents window').dedup := by
    intro agent hagent
    rw [List.mem_dedup] at hagent ⊢
    exact List.map_subset _ hsub hagent
  exact h.trans ((List.nodup_dedup _).subperm hdedup).length_le

/-! ### The windows of one user -/

/-- The failures of one user, sorted by time. -/
def sortedFailures (events : List AuthFailureEvent) (user : String) : List AuthFailureEvent :=
  (events.filter fun e => e.username = user).insertionSort (Rising AuthFailureEvent.time)

variable {events : List AuthFailureEvent} {user : String} {e f : AuthFailureEvent}
  {window : List AuthFailureEvent} {alert : CredentialSprayAlert}

theorem mem_sortedFailures : e ∈ sortedFailures events user ↔ e ∈ events ∧ e.username = user := by
  rw [sortedFailures, List.mem_insertionSort, List.mem_filter, decide_eq_true_eq]

theorem mem_byUser {failures : List AuthFailureEvent} (h : (user, failures) ∈ byUser events) :
    failures = events.filter fun e => e.username = user := by
  rw [byUser, mem_groups] at h
  rw [h.2]
  exact valuesAt_map _ _ _

theorem byUser_mem (he : e ∈ events) :
    (e.username, events.filter fun f => f.username = e.username) ∈ byUser events := by
  rw [byUser, mem_groups, List.map_map]
  exact ⟨List.mem_map_of_mem he, (valuesAt_map _ _ _).symm⟩

/-- The windows that the loop goes through for one user. -/
def windowsOf (windowSecs : Int64) (h : minAgents ≠ 0) (events : List AuthFailureEvent)
    (user : String) : List (AuthFailureEvent × List AuthFailureEvent) :=
  slide (AuthFailureEvent.inWindow windowSecs) (onManyAgents minAgents) (onManyAgents_nil h)
    (sortedFailures events user)

/-- A window holds all the failures of the user in its time. -/
theorem mem_windowsOf (hw : 0 ≤ windowSecs.toInt) (hm : minAgents ≠ 0)
    (h : (e, window) ∈ windowsOf windowSecs hm events user) :
    window.Pairwise (Rising AuthFailureEvent.time) ∧ onManyAgents minAgents window = true ∧
      ∀ f, f ∈ window ↔ (f ∈ events ∧ f.username = user) ∧
        e.time ≤ f.time ∧ f.time ≤ e.time + windowSecs.toInt := by
  have hsorted := pairwise_sorted AuthFailureEvent.time (events.filter fun e => e.username = user)
  obtain ⟨-, rfl, hmany⟩ := mem_slide (inWindow_iff hw) onManyAgents_of_subset hw hsorted h
  refine ⟨hsorted.filter _, hmany, fun f => ?_⟩
  rw [mem_span, ← mem_sortedFailures, sortedFailures]

/-! ### Alerts -/

/-- The failures that an alert is about. -/
def CredentialSprayAlert.Covers (alert : CredentialSprayAlert) (e : AuthFailureEvent) : Prop :=
  e.username = alert.targetAccount ∧ alert.firstSeen.toInt ≤ e.time ∧
    e.time ≤ alert.lastSeen.toInt

/-- `last_seen` is the time of the last event of the window. -/
theorem lastSeen_sprayAlert (user : String) (windowSecs : Int64) (e : AuthFailureEvent)
    (hsorted : window.Pairwise (Rising AuthFailureEvent.time))
    (hne : window ≠ []) :
    ∃ last ∈ window, (sprayAlert user windowSecs (e, window)).lastSeen.toInt = last.time ∧
      ∀ f ∈ window, f.time ≤ last.time := by
  obtain ⟨before, last, rfl⟩ : ∃ before last, window = before ++ [last] :=
    ⟨_, _, (List.dropLast_append_getLast hne).symm⟩
  refine ⟨last, List.mem_append_right _ (List.mem_singleton_self _), ?_, fun f hf => ?_⟩
  · rw [sprayAlert, List.getLast?_concat]
    rfl
  · rcases List.mem_append.mp hf with hf | hf
    · exact (List.pairwise_append.mp hsorted).2.2 f hf last (List.mem_singleton_self _)
    · rw [List.mem_singleton.mp hf]

theorem ne_nil_of_onManyAgents (hm : minAgents ≠ 0) (h : onManyAgents minAgents window = true) :
    window ≠ [] := by
  rintro rfl
  rw [onManyAgents_nil hm] at h
  exact absurd h Bool.false_ne_true

/-- An alert covers what its window holds. -/
theorem covers_sprayAlert (hw : 0 ≤ windowSecs.toInt) (hm : minAgents ≠ 0)
    (h : (e, window) ∈ windowsOf windowSecs hm events user) :
    (f ∈ events ∧ (sprayAlert user windowSecs (e, window)).Covers f) ↔ f ∈ window := by
  obtain ⟨hsorted, hmany, hmem⟩ := mem_windowsOf hw hm h
  obtain ⟨last, hlast, hlastSeen, hle⟩ := lastSeen_sprayAlert user windowSecs e hsorted
    (ne_nil_of_onManyAgents hm hmany)
  have hfirst : (sprayAlert user windowSecs (e, window)).firstSeen.toInt = e.time := rfl
  have hend := ((hmem last).mp hlast).2.2
  rw [CredentialSprayAlert.Covers, hlastSeen, hfirst, hmem]
  constructor
  · rintro ⟨hf, huser, hafter, hbefore⟩
    exact ⟨⟨hf, huser⟩, hafter, hbefore.trans hend⟩
  · intro hf
    exact ⟨hf.1.1, hf.1.2, hf.2.1, hle f ((hmem f).mpr hf)⟩

theorem mem_userAlerts {hm : minAgents ≠ 0}
    (h : alert ∈ userAlerts windowSecs hm (user, events.filter fun e => e.username = user)) :
    ∃ p ∈ windowsOf windowSecs hm events user, sprayAlert user windowSecs p = alert := by
  rw [userAlerts] at h
  split_ifs at h
  · exact absurd h List.not_mem_nil
  · exact List.mem_map.mp h

/-- The failures of the user within the width from `start` on. -/
def failuresWithin (events : List AuthFailureEvent) (user : String) (start width : ℤ) :
    List AuthFailureEvent :=
  events.filter fun e => e.username = user ∧ start ≤ e.time ∧ e.time ≤ start + width

/-- What an alert says is so, no dense failures are without one, and no failure has two. -/
structure SprayExact (events : List AuthFailureEvent) (windowSecs : Int64) (minAgents : Nat)
    (alerts : List CredentialSprayAlert) : Prop where
  width : ∀ alert ∈ alerts, alert.lastSeen.toInt - alert.firstSeen.toInt ≤ windowSecs.toInt
  agents : ∀ alert ∈ alerts, ∀ agent, agent ∈ alert.involvedAgents ↔
    ∃ e ∈ events, alert.Covers e ∧ e.agentId = agent
  many : ∀ alert ∈ alerts, alert.involvedAgents.Nodup ∧
    alert.agentCount = alert.involvedAgents.length ∧ minAgents ≤ alert.agentCount
  complete : ∀ user start,
    minAgents ≤ (Events.agents (failuresWithin events user start windowSecs.toInt)).dedup.length →
    ∃ alert ∈ alerts, ∃ e ∈ failuresWithin events user start windowSecs.toInt, alert.Covers e
  disjoint : alerts.Pairwise fun a b => ∀ e ∈ events, ¬ (a.Covers e ∧ b.Covers e)

theorem detectCredentialSpray_eq (hm : minAgents ≠ 0) :
    detectCredentialSpray events windowSecs minAgents =
      (byUser events).flatMap (userAlerts windowSecs hm) := by
  rw [detectCredentialSpray]
  split_ifs with h
  · obtain rfl := List.isEmpty_iff.mp (h.resolve_right hm)
    rfl
  · rfl

theorem mem_detectCredentialSpray (hm : minAgents ≠ 0)
    (h : alert ∈ detectCredentialSpray events windowSecs minAgents) :
    ∃ user, ∃ p ∈ windowsOf windowSecs hm events user, sprayAlert user windowSecs p = alert := by
  rw [detectCredentialSpray_eq hm, List.mem_flatMap] at h
  obtain ⟨⟨user, failures⟩, hgroup, halert⟩ := h
  obtain rfl := mem_byUser hgroup
  exact ⟨user, mem_userAlerts halert⟩

/-- A dense stretch of failures is long enough for the loop, and touches a window. -/
theorem exists_alert (hw : 0 ≤ windowSecs.toInt) (hm : minAgents ≠ 0) {start : ℤ}
    (h : minAgents ≤ (agents (failuresWithin events user start windowSecs.toInt)).dedup.length) :
    ∃ alert ∈ detectCredentialSpray events windowSecs minAgents,
      ∃ e ∈ failuresWithin events user start windowSecs.toInt, alert.Covers e := by
  have hsorted := pairwise_sorted AuthFailureEvent.time (events.filter fun e => e.username = user)
  have hmem : ∀ f, f ∈ failuresWithin events user start windowSecs.toInt ↔
      f ∈ span AuthFailureEvent.time windowSecs.toInt start (sortedFailures events user) := by
    intro f
    rw [mem_span, mem_sortedFailures, failuresWithin, List.mem_filter, decide_eq_true_eq, and_assoc]
  have hdense := onManyAgents_of_subset (fun f hf => (hmem f).mp hf) (onManyAgents_iff.mpr h)
  have hexists : ∃ p ∈ windowsOf windowSecs hm events user,
      ∃ f ∈ p.2, start ≤ f.time ∧ f.time ≤ start + windowSecs.toInt :=
    exists_window (inWindow_iff hw) onManyAgents_of_subset hw hsorted start hdense
  obtain ⟨⟨first, window⟩, hwindow, f, hf, hspan⟩ := hexists
  obtain ⟨hevent, hcovers⟩ := (covers_sprayAlert hw hm hwindow).mpr hf
  have huser : f.username = user := hcovers.1
  have hlength : ¬ (events.filter fun e => e.username = user).length < minAgents := by
    have hsublist : (failuresWithin events user start windowSecs.toInt).length ≤
        (events.filter fun e => e.username = user).length := by
      refine (List.monotone_filter_right events fun e he => ?_).length_le
      rw [decide_eq_true_eq] at he ⊢
      exact he.1
    have hdedup := (List.dedup_sublist
      (agents (failuresWithin events user start windowSecs.toInt))).length_le
    rw [agents, List.length_map] at hdedup
    exact not_lt.mpr ((h.trans hdedup).trans hsublist)
  refine ⟨_, ?_, f, ?_, hcovers⟩
  · rw [detectCredentialSpray_eq hm, List.mem_flatMap]
    refine ⟨_, byUser_mem hevent, ?_⟩
    rw [huser, userAlerts, if_neg hlength]
    exact List.mem_map_of_mem hwindow
  · exact (hmem f).mpr (mem_span.mpr ⟨mem_sortedFailures.mpr ⟨hevent, huser⟩, hspan⟩)

/-- Two alerts of one user do not overlap, and alerts of two users are about other events. -/
theorem pairwise_detectCredentialSpray (hw : 0 ≤ windowSecs.toInt) (hm : minAgents ≠ 0) :
    (detectCredentialSpray events windowSecs minAgents).Pairwise fun a b =>
      ∀ e ∈ events, ¬ (a.Covers e ∧ b.Covers e) := by
  rw [detectCredentialSpray_eq hm, List.pairwise_flatMap]
  constructor
  · rintro ⟨user, failures⟩ hgroup
    obtain rfl := mem_byUser hgroup
    rw [userAlerts]
    split_ifs
    · exact List.Pairwise.nil
    · rw [List.pairwise_map]
      have hpairs : (windowsOf windowSecs hm events user).Pairwise fun p q =>
          ∀ e ∈ p.2, e.time < q.1.time :=
        pairwise_slide (inWindow_iff hw) onManyAgents_of_subset hw (pairwise_sorted _ _)
      refine List.Pairwise.imp_of_mem ?_ hpairs
      rintro ⟨first, window⟩ ⟨next, window'⟩ hp hq hbefore e he ⟨hcovers, hcovers'⟩
      have hin := (covers_sprayAlert hw hm hp).mp ⟨he, hcovers⟩
      exact absurd hcovers'.2.1 (not_le.mpr (hbefore e hin))
  · have hnodup := nodup_groups ascendingOrder (events.map fun e => (e.username, e))
    refine (List.pairwise_map.mp hnodup).imp_of_mem ?_
    rintro ⟨user, failures⟩ ⟨user', failures'⟩ hgroup hgroup' hne a ha b hb e _ ⟨hcovers, hcovers'⟩
    obtain rfl := mem_byUser hgroup
    obtain rfl := mem_byUser hgroup'
    obtain ⟨p, -, rfl⟩ := mem_userAlerts ha
    obtain ⟨q, -, rfl⟩ := mem_userAlerts hb
    exact hne (hcovers.1.symm.trans hcovers'.1)

/-! ### The order of the events -/

theorem sprayAlert_eq {p q : AuthFailureEvent × List AuthFailureEvent}
    (h : SameWindow AuthFailureEvent.time p q) :
    sprayAlert user windowSecs p = sprayAlert user windowSecs q := by
  have hfirst : p.1.timestampEpoch = q.1.timestampEpoch := Int64.toInt_inj.mp h.first
  have htimes : p.2.map (·.timestampEpoch) = q.2.map (·.timestampEpoch) := by
    refine List.map_injective_iff.mpr (fun _ _ => Int64.toInt_inj.mp) ?_
    rw [List.map_map, List.map_map]
    exact h.times
  have hagents : (agents p.2).Perm (agents q.2) := h.perm.map _
  rw [sprayAlert, sprayAlert, ← List.getLast?_map, ← List.getLast?_map, htimes, hfirst,
    sortedKeys_eq_of_perm hagents, hagents.dedup.length_eq,
    sortedKeys_eq_of_perm (h.perm.filterMap _)]

theorem userAlerts_eq (hw : 0 ≤ windowSecs.toInt) (hm : minAgents ≠ 0)
    {g g' : String × List AuthFailureEvent} (huser : g.1 = g'.1) (hperm : g.2.Perm g'.2) :
    userAlerts windowSecs hm g = userAlerts windowSecs hm g' := by
  have hsorted := ((List.perm_insertionSort (Rising AuthFailureEvent.time) g.2).trans hperm).trans
    (List.perm_insertionSort (Rising AuthFailureEvent.time) g'.2).symm
  have hwindows : List.Forall₂ (SameWindow AuthFailureEvent.time)
      (slide (AuthFailureEvent.inWindow windowSecs) (onManyAgents minAgents) (onManyAgents_nil hm)
        (g.2.insertionSort (Rising AuthFailureEvent.time)))
      (slide (AuthFailureEvent.inWindow windowSecs) (onManyAgents minAgents) (onManyAgents_nil hm)
        (g'.2.insertionSort (Rising AuthFailureEvent.time))) :=
    slide_perm (inWindow_iff hw) onManyAgents_of_subset hw (pairwise_sorted _ g.2)
      (pairwise_sorted _ g'.2) hsorted
  rw [userAlerts, userAlerts, hperm.length_eq, huser,
    map_eq_of_forall₂ hwindows fun p q hsame => sprayAlert_eq hsame]

theorem detectCredentialSpray_perm (hw : 0 ≤ windowSecs.toInt) (hm : minAgents ≠ 0)
    {events' : List AuthFailureEvent} (h : events.Perm events') :
    detectCredentialSpray events' windowSecs minAgents =
      detectCredentialSpray events windowSecs minAgents := by
  have hgroups := forall₂_groups (h.map fun e => (e.username, e))
  rw [detectCredentialSpray_eq hm, detectCredentialSpray_eq hm, List.flatMap, List.flatMap, byUser,
    byUser, map_eq_of_forall₂ hgroups fun g g' hsame => userAlerts_eq hw hm hsame.1 hsame.2]

theorem credential_spray_exact (events : List AuthFailureEvent) (windowSecs : Int64)
    (minAgents : Nat) (hw : 0 ≤ windowSecs) (hm : 1 ≤ minAgents) :
    SprayExact events windowSecs minAgents (detectCredentialSpray events windowSecs minAgents) ∧
      ∀ events' : List AuthFailureEvent, events.Perm events' →
        detectCredentialSpray events' windowSecs minAgents =
          detectCredentialSpray events windowSecs minAgents := by
  have hne : minAgents ≠ 0 := Nat.one_le_iff_ne_zero.mp hm
  have hwidth : 0 ≤ windowSecs.toInt := Int64.le_iff_toInt_le.mp hw
  refine ⟨⟨fun alert halert => ?_, fun alert halert agent => ?_, fun alert halert => ?_,
    fun user start h => exists_alert hwidth hne h, pairwise_detectCredentialSpray hwidth hne⟩,
    fun events' h => detectCredentialSpray_perm hwidth hne h⟩
  all_goals obtain ⟨user, ⟨first, window⟩, hwindow, rfl⟩ := mem_detectCredentialSpray hne halert
  · obtain ⟨hsorted, hmany, hmem⟩ := mem_windowsOf hwidth hne hwindow
    obtain ⟨last, hlast, hlastSeen, -⟩ := lastSeen_sprayAlert user windowSecs first hsorted
      (ne_nil_of_onManyAgents hne hmany)
    have hspan := ((hmem last).mp hlast).2.2
    have hfirst : (sprayAlert user windowSecs (first, window)).firstSeen.toInt = first.time := rfl
    rw [hlastSeen, hfirst]
    omega
  · have hagents : (sprayAlert user windowSecs (first, window)).involvedAgents =
        sortedKeys (agents window) := rfl
    rw [hagents, mem_sortedKeys, agents, List.mem_map]
    constructor
    · rintro ⟨e, he, hagent⟩
      obtain ⟨hevent, hcovers⟩ := (covers_sprayAlert hwidth hne hwindow).mpr he
      exact ⟨e, hevent, hcovers, hagent⟩
    · rintro ⟨e, hevent, hcovers, hagent⟩
      exact ⟨e, (covers_sprayAlert hwidth hne hwindow).mp ⟨hevent, hcovers⟩, hagent⟩
  · obtain ⟨-, hmany, -⟩ := mem_windowsOf hwidth hne hwindow
    exact ⟨nodup_sortedKeys _, (sortedKeys_perm _).length_eq.symm, onManyAgents_iff.mp hmany⟩

/-- Three failures of one user on three agents within ten minutes. -/
def adminFailures : List AuthFailureEvent :=
  [⟨"agent-1", "admin", 1000, some "10.0.0.1"⟩, ⟨"agent-2", "admin", 1100, some "10.0.0.2"⟩,
    ⟨"agent-3", "admin", 1200, some "10.0.0.3"⟩]

theorem credential_spray_exact_admin :
    SprayExact adminFailures 600 3 (detectCredentialSpray adminFailures 600 3) ∧
      ∀ events' : List AuthFailureEvent, adminFailures.Perm events' →
        detectCredentialSpray events' 600 3 = detectCredentialSpray adminFailures 600 3 :=
  credential_spray_exact adminFailures 600 3 (by decide) (by decide)

end Wardex.Events
