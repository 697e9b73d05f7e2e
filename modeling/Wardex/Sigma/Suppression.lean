import Mathlib.Data.List.Nodup
import Wardex.Lib.Delimited
import Wardex.Lib.Run
import Wardex.Sigma.Condition
import Wardex.Sigma.Engine

/-! Suppression over runs of the engine.  A match counts for the rule that produced it, which
is told from others by its position, and for the host of the event. -/

namespace Wardex.Sigma

open Wardex.Lib Wardex.Lib.Throttle Wardex.Policy

inductive SigmaOp where
  | loadRules (rules : List SigmaRule)
  | addRule (rule : SigmaRule)
  | replaceRules (rules : List SigmaRule)
  | evaluate (event : OcsfEvent) (nowEpoch : Nat)
  | evaluateKernelEvent (event : KernelEvent) (nowEpoch : Nat)

/-- What an operation that evaluates an event asks of the rules. -/
def SigmaOp.call : SigmaOp → Option Call
  | .evaluate event now => some
      { fields := extractFields event
        hostname := event.data.device.hostname
        category := eventCategory event
        now := now }
  | .evaluateKernelEvent event now => some
      { fields := (kernelEventToSigmaFields event).1
        hostname := event.hostname
        category := (kernelEventToSigmaFields event).2
        now := now }
  | _ => none

section

variable (F : Type) [F64 F] (toLowercase : String → String)

def SigmaOp.perform (engine : SigmaEngine) : SigmaOp → Except Panic (SigmaEngine × List Firing)
  | .loadRules rules => .ok (engine.loadRules rules, [])
  | .addRule rule => .ok (engine.addRule rule, [])
  | .replaceRules rules => .ok (engine.replaceRules rules, [])
  | .evaluate event now => engine.evaluate F toLowercase event now
  | .evaluateKernelEvent event now => engine.evaluateKernelEvent F toLowercase event now

/-- A match, with the host and the time of the event. -/
structure Produced where
  firing : Firing
  hostname : String
  time : Nat

/-- An engine with the matches since the rules were last replaced. -/
structure SigmaSession where
  engine : SigmaEngine
  produced : List Produced
  clock : Nat

namespace SigmaSession

def start : SigmaSession where
  engine := SigmaEngine.new
  produced := []
  clock := 0

def step (s : SigmaSession) (op : SigmaOp) : SigmaSession :=
  match op.perform F toLowercase s.engine with
  | .error _ => s
  | .ok (engine, firings) =>
    match op.call with
    | some call =>
      { engine := engine
        produced := s.produced ++ firings.map fun f => ⟨f, call.hostname, call.now⟩
        clock := call.now }
    | none =>
      { engine := engine
        produced := match op with
          | .replaceRules _ => []
          | _ => s.produced
        clock := s.clock }

def firings (s : SigmaSession) (op : SigmaOp) : List Firing :=
  match op.perform F toLowercase s.engine with
  | .error _ => []
  | .ok r => r.2

/-- The operation returns, and time has not gone back. -/
def Proceeds (s : SigmaSession) (op : SigmaOp) : Prop :=
  (∃ r, op.perform F toLowercase s.engine = .ok r) ∧ ∀ call, op.call = some call →
    s.clock ≤ call.now

/-- The rule at this position has produced a match for the host within the window. -/
def OwnRecent (s : SigmaSession) (call : Call) (position window : Nat) : Prop :=
  ∃ p ∈ s.produced, p.firing.position = position ∧ p.hostname = call.hostname ∧
    call.now - p.time < window

/-- Some rule with a window has produced a match under the key of `id` and the host within the
window. -/
def KeyRecent (s : SigmaSession) (call : Call) (id : String) (window : Nat) : Prop :=
  ∃ p ∈ s.produced, 0 < p.firing.rule.suppressForSecs ∧
    suppressionKey p.firing.rule.id p.hostname = suppressionKey id call.hostname ∧
    call.now - p.time < window

/-- A rule with a window fires exactly when its detection matches and it has not itself fired
for the host within the window. -/
def Exact (s : SigmaSession) (op : SigmaOp) : Prop :=
  ∀ call, op.call = some call → ∀ i rule, s.engine.rules[i]? = some rule →
    rule.enabled = true → rule.logsource.category = call.category → 0 < rule.suppressForSecs →
    ((∃ f ∈ s.firings F toLowercase op, f.position = i) ↔
      detectionMatches F toLowercase rule call.fields = true ∧
        ¬ s.OwnRecent call i rule.suppressForSecs)

/-- A rule that would fire shares its key with a recent match, or its id with an earlier rule
that fires on the same event, only if it has itself fired recently. -/
def Unaliased (s : SigmaSession) (op : SigmaOp) : Prop :=
  ∀ call, op.call = some call → ∀ i rule, s.engine.rules[i]? = some rule →
    Applies F toLowercase call rule → 0 < rule.suppressForSecs →
    (s.KeyRecent call rule.id rule.suppressForSecs ∨
      ∃ j < i, ∃ q, s.engine.rules[j]? = some q ∧ Applies F toLowercase call q ∧
        0 < q.suppressForSecs ∧ q.id = rule.id ∧ ¬ s.KeyRecent call q.id q.suppressForSecs) →
    s.OwnRecent call i rule.suppressForSecs

/-- The matches that went through the memory, by key and time. -/
def remembered (s : SigmaSession) : List (String × Nat) :=
  (s.produced.filter fun p => 0 < p.firing.rule.suppressForSecs).map fun p =>
    (suppressionKey p.firing.rule.id p.hostname, p.time)

structure Inv (s : SigmaSession) : Prop where
  tracks : Tracks s.engine.suppression s.remembered s.clock
  owners : ∀ p ∈ s.produced, s.engine.rules[p.firing.position]? = some p.firing.rule

theorem inv_start : start.Inv where
  tracks := Tracks.empty 0
  owners _ h := absurd h List.not_mem_nil

end SigmaSession

variable {F toLowercase} {engine engine' : SigmaEngine} {op : SigmaOp} {call : Call}
  {firings : List Firing}

theorem requests_filter (rules : List (SigmaRule × Nat)) :
    requests F toLowercase call (rules.filter fun p =>
      p.1.enabled ∧ p.1.logsource.category = call.category) =
        requests F toLowercase call rules := by
  unfold requests
  rw [List.filter_filter]
  refine congrArg (List.map _) (List.filter_congr fun p _ => ?_)
  rw [Bool.eq_iff_iff, Bool.and_eq_true, decide_eq_true_iff, decide_eq_true_iff]
  exact ⟨And.left, fun h => ⟨h, h.1.1, h.1.2.1⟩⟩

theorem Serves.of_filter {rules : List (SigmaRule × Nat)} {suppression suppression' : Table Nat}
    (h : Serves F toLowercase call (rules.filter fun p =>
      p.1.enabled ∧ p.1.logsource.category = call.category) suppression suppression' firings) :
    Serves F toLowercase call rules suppression suppression' firings where
  memory := by
    rw [← requests_filter]
    exact h.memory
  fired := by
    rw [← requests_filter rules]
    exact h.fired
  owners f hf := List.mem_of_mem_filter (h.owners f hf)

/-- Both ways to evaluate an event leave the rules alone and serve the same requests. -/
theorem SigmaOp.perform_call (hcall : op.call = some call)
    (h : op.perform F toLowercase engine = .ok (engine', firings)) :
    engine'.rules = engine.rules ∧
      Serves F toLowercase call engine.rules.zipIdx engine.suppression engine'.suppression
        firings := by
  cases op with
  | loadRules rules => cases hcall
  | addRule rule => cases hcall
  | replaceRules rules => cases hcall
  | evaluate event now =>
    obtain rfl := Option.some.inj hcall
    obtain ⟨⟨suppression, fired⟩, hloop, he⟩ := map_ok h
    obtain ⟨rfl, rfl⟩ := Prod.mk.inj he
    rw [extractFields_hostname] at hloop
    exact ⟨rfl, evaluateLoop_serves hloop⟩
  | evaluateKernelEvent event now =>
    obtain rfl := Option.some.inj hcall
    obtain ⟨⟨suppression, fired⟩, hloop, he⟩ := map_ok h
    obtain ⟨rfl, rfl⟩ := Prod.mk.inj he
    rw [kernelEventToSigmaFields_hostname] at hloop
    refine ⟨rfl, Serves.of_filter (kernelLoop_serves ?_ hloop)⟩
    intro p hp
    exact of_decide_eq_true (List.mem_filter.mp hp).2

theorem mem_requests {rules : List (SigmaRule × Nat)} {r : Request String (SigmaRule × Nat)}
    (h : r ∈ requests F toLowercase call rules) :
    r = request call r.owner ∧ r.owner ∈ rules ∧ Applies F toLowercase call r.owner.1 ∧
      0 < r.owner.1.suppressForSecs := by
  obtain ⟨p, hp, rfl⟩ := List.mem_map.mp h
  obtain ⟨hmem, hdecide⟩ := List.mem_filter.mp hp
  exact ⟨rfl, hmem, of_decide_eq_true hdecide⟩

theorem mem_requests_of {rules : List (SigmaRule × Nat)} {p : SigmaRule × Nat} (hp : p ∈ rules)
    (h : Applies F toLowercase call p.1 ∧ 0 < p.1.suppressForSecs) :
    request call p ∈ requests F toLowercase call rules :=
  List.mem_map_of_mem (List.mem_filter.mpr ⟨hp, decide_eq_true h⟩)

theorem suppressionKey_inj {id id' hostname : String}
    (h : suppressionKey id hostname = suppressionKey id' hostname) : id = id' := by
  have hchars := congrArg String.toList h
  simp only [suppressionKey, String.toList_append, List.append_assoc] at hchars
  exact String.toList_inj.mp (List.append_cancel_right hchars)

/-- A rule with a window fires exactly when its request goes through. -/
theorem Serves.fires_iff {rules : List SigmaRule} {suppression suppression' : Table Nat}
    (h : Serves F toLowercase call rules.zipIdx suppression suppression' firings) {i : Nat}
    {rule : SigmaRule} (hrule : rules[i]? = some rule) (hwindow : 0 < rule.suppressForSecs) :
    (∃ f ∈ firings, f.position = i) ↔ request call (rule, i) ∈
      (turn call.now suppression (requests F toLowercase call rules.zipIdx)).2 := by
  constructor
  · rintro ⟨f, hf, rfl⟩
    have hsome := List.mem_zipIdx_iff_getElem?.mp (h.owners f hf)
    obtain rfl : f.rule = rule := Option.some.inj (hsome.symm.trans hrule)
    have howner : f.owner ∈ (firings.filter fun f => 0 < f.rule.suppressForSecs).map Firing.owner :=
      List.mem_map_of_mem (List.mem_filter.mpr ⟨hf, decide_eq_true hwindow⟩)
    rw [h.fired] at howner
    obtain ⟨r, hr, hre⟩ := List.mem_map.mp howner
    obtain ⟨hrequest, -⟩ := mem_requests ((turn_sublist _).mem hr)
    rw [hre] at hrequest
    exact hrequest ▸ hr
  · intro hr
    have howner := List.mem_map_of_mem (f := Request.owner) hr
    rw [← h.fired] at howner
    obtain ⟨f, hf, hfe⟩ := List.mem_map.mp howner
    exact ⟨f, List.mem_of_mem_filter hf, congrArg Prod.snd hfe⟩

/-- The requests before and after the one of a rule, told from it by their position. -/
theorem requests_split {rules : List SigmaRule} {i : Nat} {rule : SigmaRule}
    (hrule : rules[i]? = some rule) (happlies : Applies F toLowercase call rule)
    (hwindow : 0 < rule.suppressForSecs) :
    ∃ pre post, requests F toLowercase call rules.zipIdx = pre ++ request call (rule, i) :: post ∧
      (∀ r ∈ post, i < r.owner.2) ∧ ∀ r, r ∈ pre ↔
        r.owner.2 < i ∧ r ∈ requests F toLowercase call rules.zipIdx := by
  have hsplit : rules.zipIdx =
      (rules.take i).zipIdx ++ (rule, i) :: (rules.drop (i + 1)).zipIdx (i + 1) := by
    obtain ⟨hlt, hget⟩ := List.getElem?_eq_some_iff.mp hrule
    conv_lhs => rw [← List.take_append_drop i rules, List.drop_eq_getElem_cons hlt, hget]
    rw [List.zipIdx_append, List.zipIdx_cons, List.length_take, Nat.min_eq_left hlt.le,
      Nat.zero_add]
  have hrequests : requests F toLowercase call rules.zipIdx =
      requests F toLowercase call (rules.take i).zipIdx ++ request call (rule, i) ::
        requests F toLowercase call ((rules.drop (i + 1)).zipIdx (i + 1)) := by
    rw [hsplit, ← requests_cons_of (p := (rule, i)) ⟨happlies, hwindow⟩]
    simp only [requests, List.filter_append, List.map_append]
  have hpost : ∀ r ∈ requests F toLowercase call ((rules.drop (i + 1)).zipIdx (i + 1)),
      i < r.owner.2 := fun r hr => (List.mem_zipIdx (mem_requests hr).2.1).1
  refine ⟨_, _, hrequests, hpost, fun r => ⟨fun hr => ?_, ?_⟩⟩
  · have hlt := (List.mem_zipIdx' (mem_requests hr).2.1).1
    rw [List.length_take] at hlt
    rw [hrequests]
    exact ⟨hlt.trans_le (Nat.min_le_left _ _), List.mem_append_left _ hr⟩
  · rintro ⟨hlt, hr⟩
    rw [hrequests, List.mem_append, List.mem_cons] at hr
    rcases hr with hr | rfl | hr
    · exact hr
    · exact absurd hlt (lt_irrefl i)
    · exact absurd hlt (hpost r hr).not_gt

/-- The request of a rule goes through when its key is not remembered and no earlier request
with its key was free to go. -/
theorem request_mem_turn_iff {rules : List SigmaRule} {suppression : Table Nat} {i : Nat}
    {rule : SigmaRule} (hrule : rules[i]? = some rule) (happlies : Applies F toLowercase call rule)
    (hwindow : 0 < rule.suppressForSecs) :
    request call (rule, i) ∈
        (turn call.now suppression (requests F toLowercase call rules.zipIdx)).2 ↔
      ¬Blocked suppression (suppressionKey rule.id call.hostname) call.now rule.suppressForSecs ∧
        ∀ j < i, ∀ q, rules[j]? = some q → Applies F toLowercase call q → 0 < q.suppressForSecs →
          q.id = rule.id →
            Blocked suppression (suppressionKey q.id call.hostname) call.now q.suppressForSecs := by
  obtain ⟨pre, post, hsplit, hpost, hpre⟩ := requests_split hrule happlies hwindow
  have hnotPre : request call (rule, i) ∉ pre := fun h => lt_irrefl i ((hpre _).mp h).1
  have hnotPost : request call (rule, i) ∉ post := fun h => lt_irrefl i (hpost _ h)
  rw [hsplit, mem_turn_iff hwindow hnotPre hnotPost]
  refine and_congr_right fun _ => ⟨fun hall j hj q hq hqapplies hqwindow hid => ?_, ?_⟩
  · have hentry : (q, j) ∈ rules.zipIdx := List.mem_zipIdx_iff_getElem?.mpr hq
    have hmem := mem_requests_of hentry ⟨hqapplies, hqwindow⟩
    rw [hid]
    exact hall _ ((hpre (request call (q, j))).mpr ⟨hj, hmem⟩)
      (congrArg (suppressionKey · call.hostname) hid)
  · intro hall r hr hkey
    obtain ⟨hlt, hmem⟩ := (hpre r).mp hr
    obtain ⟨hrequest, hrule', hrapplies, hrwindow⟩ := mem_requests hmem
    rw [hrequest] at hkey ⊢
    have hid : r.owner.1.id = rule.id := suppressionKey_inj hkey
    have hblocked := hall _ hlt _ (List.mem_zipIdx_iff_getElem?.mp hrule') hrapplies hrwindow hid
    rw [hid] at hblocked
    exact hblocked

/-- What the memory has let through is what fired, by key. -/
theorem Serves.keys {rules : List (SigmaRule × Nat)} {suppression suppression' : Table Nat}
    (h : Serves F toLowercase call rules suppression suppression' firings) :
    ((turn call.now suppression (requests F toLowercase call rules)).2.map fun r =>
        (r.key, call.now)) =
      (firings.filter fun f => 0 < f.rule.suppressForSecs).map fun f =>
        (suppressionKey f.rule.id call.hostname, call.now) := by
  have hkey : ∀ r ∈ (turn call.now suppression (requests F toLowercase call rules)).2,
      (r.key, call.now) = (suppressionKey r.owner.1.id call.hostname, call.now) := by
    intro r hr
    obtain ⟨hrequest, -⟩ := mem_requests ((turn_sublist _).mem hr)
    rw [hrequest]
    rfl
  have hmap := congrArg (List.map fun p : SigmaRule × Nat =>
    (suppressionKey p.1.id call.hostname, call.now)) h.fired
  rw [List.map_map, List.map_map] at hmap
  rw [List.map_congr_left hkey]
  exact hmap.symm

namespace SigmaSession

variable {s : SigmaSession}

theorem step_call (hcall : op.call = some call)
    (h : op.perform F toLowercase s.engine = .ok (engine', firings)) :
    s.step F toLowercase op =
      { engine := engine'
        produced := s.produced ++ firings.map fun f => ⟨f, call.hostname, call.now⟩
        clock := call.now } := by
  simp only [step, h, hcall]

theorem step_rules (hcall : op.call = some call) :
    (s.step F toLowercase op).engine.rules = s.engine.rules := by
  cases hperform : op.perform F toLowercase s.engine with
  | error e => simp only [step, hperform]
  | ok r =>
    rw [step_call hcall hperform]
    exact (SigmaOp.perform_call hcall hperform).1

theorem Inv.loadRules (h : s.Inv) (rules : List SigmaRule) :
    Inv { s with engine := s.engine.loadRules rules } where
  tracks := h.tracks
  owners p hp := by
    obtain ⟨hlt, -⟩ := List.getElem?_eq_some_iff.mp (h.owners p hp)
    change (s.engine.rules ++ rules)[p.firing.position]? = some p.firing.rule
    rw [List.getElem?_append_left hlt]
    exact h.owners p hp

/-- The memory is in step with the matches, whatever is done. -/
theorem Inv.step (h : s.Inv) (hproceeds : s.Proceeds F toLowercase op) :
    (s.step F toLowercase op).Inv := by
  obtain ⟨⟨⟨engine', firings⟩, hperform⟩, hclock⟩ := hproceeds
  cases hcall : op.call with
  | some call =>
    obtain ⟨hrules, hserves⟩ := SigmaOp.perform_call hcall hperform
    rw [step_call hcall hperform]
    constructor
    · have hturn := h.tracks.turn (hclock call hcall)
        (requests F toLowercase call s.engine.rules.zipIdx)
      rw [hserves.keys, ← hserves.memory] at hturn
      have hremembered : s.remembered ++
          (firings.filter fun f => 0 < f.rule.suppressForSecs).map (fun f =>
            (suppressionKey f.rule.id call.hostname, call.now)) =
          remembered
            { engine := engine'
              produced := s.produced ++ firings.map fun f => ⟨f, call.hostname, call.now⟩
              clock := call.now } := by
        simp only [remembered, List.filter_append, List.map_append, List.filter_map, List.map_map]
        rfl
      rw [hremembered] at hturn
      exact hturn
    · intro p hp
      change engine'.rules[p.firing.position]? = some p.firing.rule
      rw [hrules]
      rcases List.mem_append.mp hp with hp | hp
      · exact h.owners p hp
      · obtain ⟨f, hf, rfl⟩ := List.mem_map.mp hp
        have howner := hserves.owners f hf
        exact (List.mem_zipIdx_iff_getElem?.mp howner)
  | none =>
    cases op with
    | loadRules rules => exact h.loadRules rules
    | addRule rule => exact h.loadRules [rule]
    | replaceRules rules => exact ⟨Tracks.empty s.clock, fun _ hp => absurd hp List.not_mem_nil⟩
    | evaluate event now => cases hcall
    | evaluateKernelEvent event now => cases hcall

/-- The memory remembers a key exactly when a rule has fired under it. -/
theorem Inv.blocked_iff (h : s.Inv) (id : String) (window : Nat) :
    Blocked s.engine.suppression (suppressionKey id call.hostname) call.now window ↔
      s.KeyRecent call id window := by
  rw [h.tracks.blocked_iff]
  constructor
  · rintro ⟨t, hmem, ht⟩
    obtain ⟨p, hp, he⟩ := List.mem_map.mp hmem
    obtain ⟨hproduced, hwindow⟩ := List.mem_filter.mp hp
    obtain ⟨hkey, rfl⟩ := Prod.mk.inj he
    exact ⟨p, hproduced, of_decide_eq_true hwindow, hkey, ht⟩
  · rintro ⟨p, hp, hwindow, hkey, ht⟩
    exact ⟨p.time, List.mem_map.mpr ⟨p, List.mem_filter.mpr ⟨hp, decide_eq_true hwindow⟩,
      Prod.ext hkey rfl⟩, ht⟩

/-- A rule with a window fires exactly when it applies, its key is not remembered, and no
earlier rule with its id was free to fire. -/
theorem fires_iff (h : s.Inv) (hcall : op.call = some call)
    (hperform : op.perform F toLowercase s.engine = .ok (engine', firings)) {i : Nat}
    {rule : SigmaRule} (hrule : s.engine.rules[i]? = some rule)
    (hwindow : 0 < rule.suppressForSecs) :
    (∃ f ∈ firings, f.position = i) ↔ Applies F toLowercase call rule ∧
      ¬ s.KeyRecent call rule.id rule.suppressForSecs ∧
      ∀ j < i, ∀ q, s.engine.rules[j]? = some q → Applies F toLowercase call q →
        0 < q.suppressForSecs → q.id = rule.id → s.KeyRecent call q.id q.suppressForSecs := by
  obtain ⟨-, hserves⟩ := SigmaOp.perform_call hcall hperform
  rw [hserves.fires_iff hrule hwindow]
  by_cases happlies : Applies F toLowercase call rule
  · rw [request_mem_turn_iff hrule happlies hwindow, h.blocked_iff]
    simp only [h.blocked_iff, happlies, true_and]
  · refine iff_of_false (fun hr => happlies ?_) fun hall => happlies hall.1
    exact (mem_requests ((turn_sublist _).mem hr)).2.2.1

/-- A rule's own matches are remembered under its key. -/
theorem Inv.keyRecent_of_own (h : s.Inv) {i : Nat} {rule : SigmaRule}
    (hrule : s.engine.rules[i]? = some rule) (hwindow : 0 < rule.suppressForSecs)
    (hown : s.OwnRecent call i rule.suppressForSecs) :
    s.KeyRecent call rule.id rule.suppressForSecs := by
  obtain ⟨p, hp, rfl, hhost, ht⟩ := hown
  obtain rfl : p.firing.rule = rule := Option.some.inj ((h.owners p hp).symm.trans hrule)
  exact ⟨p, hp, hwindow, by rw [hhost], ht⟩

theorem exact_iff_unaliased (h : s.Inv) (hproceeds : s.Proceeds F toLowercase op) :
    s.Exact F toLowercase op ↔ s.Unaliased F toLowercase op := by
  obtain ⟨⟨⟨engine', firings⟩, hperform⟩, -⟩ := hproceeds
  have hfirings : s.firings F toLowercase op = firings := by
    unfold SigmaSession.firings
    rw [hperform]
  refine forall₂_congr fun call hcall => forall₃_congr fun i rule hrule => ?_
  rw [hfirings]
  constructor
  · intro hexact happlies hwindow hshared
    by_contra hown
    have hfires := (hexact happlies.1 happlies.2.1 hwindow).mpr ⟨happlies.2.2, hown⟩
    obtain ⟨-, hfree, hearlier⟩ := (fires_iff h hcall hperform hrule hwindow).mp hfires
    rcases hshared with hkey | ⟨j, hj, q, hq, hqapplies, hqwindow, hid, hqfree⟩
    · exact hfree hkey
    · exact hqfree (hearlier j hj q hq hqapplies hqwindow hid)
  · intro hunaliased henabled hcategory hwindow
    rw [fires_iff h hcall hperform hrule hwindow]
    constructor
    · rintro ⟨happlies, hfree, -⟩
      exact ⟨happlies.2.2, fun hown => hfree (h.keyRecent_of_own hrule hwindow hown)⟩
    · rintro ⟨hdetection, hown⟩
      have happlies : Applies F toLowercase call rule := ⟨henabled, hcategory, hdetection⟩
      refine ⟨happlies, fun hkey => hown (hunaliased happlies hwindow (Or.inl hkey)), ?_⟩
      intro j hj q hq hqapplies hqwindow hid
      by_contra hqfree
      exact hown (hunaliased happlies hwindow (Or.inr ⟨j, hj, q, hq, hqapplies, hqwindow, hid,
        hqfree⟩))

/-- Rules with ids of their own, and without colons, never share a key. -/
theorem unaliased_of_ids (h : s.Inv)
    (hids : ∀ (i j : Nat) (q r : SigmaRule), s.engine.rules[i]? = some q →
      s.engine.rules[j]? = some r →
      q.id = r.id → i = j)
    (hcolon : ∀ r ∈ s.engine.rules, ':' ∉ r.id.toList) : s.Unaliased F toLowercase op := by
  rintro call - i rule hrule - - (⟨p, hp, -, hkey, ht⟩ | ⟨j, hj, q, hq, -, -, hid, -⟩)
  · have hfirer := h.owners p hp
    have hchars := congrArg String.toList hkey
    simp only [suppressionKey, String.toList_append, List.append_assoc] at hchars
    obtain ⟨hid, hhost⟩ := fields_unique_of_not_mem hchars
      (hcolon _ (List.mem_of_getElem? hfirer)) (hcolon _ (List.mem_of_getElem? hrule))
    exact ⟨p, hp, hids _ _ _ _ hfirer hrule (String.toList_inj.mp hid),
      String.toList_inj.mp hhost, ht⟩
  · exact absurd (hids _ _ _ _ hq hrule hid) hj.ne

variable (F toLowercase)

/-- Over every run whose calls return and whose time does not go back, suppression is exact as
long as no key is shared. -/
theorem suppression_exact_iff {ops : List SigmaOp}
    (hproceeds : Along (step F toLowercase) (Proceeds F toLowercase) start ops) :
    Along (step F toLowercase) (Exact F toLowercase) start ops ↔
      Along (step F toLowercase) (Unaliased F toLowercase) start ops := by
  constructor
  · intro hexact
    exact along_of_invariant (fun s op hs hop => hs.step hop.1)
      (fun s op hs hop => (exact_iff_unaliased hs hop.1).mp hop.2) inv_start (hproceeds.and hexact)
  · intro hunaliased
    exact along_of_invariant (fun s op hs hop => hs.step hop.1)
      (fun s op hs hop => (exact_iff_unaliased hs hop.1).mpr hop.2) inv_start
      (hproceeds.and hunaliased)

end SigmaSession

end

/-- A rule on process names with a window of an hour. -/
def shellRule (id name : String) : SigmaRule :=
  { ruleOf
      { selections := Table.empty.insert "selection" (equalTo "process.name" name)
        filters := Table.empty
        condition := "selection" } with
    id := id
    logsource := { category := "process_creation", product := none, service := none }
    suppressForSecs := 3600 }

def shellEvent : KernelEvent where
  hostname := "web-1"
  kind := .processExec 7 1 "/bin/sh" []

theorem proceeds_of_isOk {F : Type} [F64 F] {toLowercase : String → String} {s : SigmaSession}
    {op : SigmaOp} (h : (op.perform F toLowercase s.engine).isOk = true)
    (hclock : ∀ call, op.call = some call → s.clock ≤ call.now) : s.Proceeds F toLowercase op := by
  refine ⟨?_, hclock⟩
  cases hperform : op.perform F toLowercase s.engine with
  | error e =>
    rw [hperform] at h
    exact absurd h Bool.false_ne_true
  | ok r => exact ⟨r, rfl⟩

theorem suppression_exact_iff_shell : Along (SigmaSession.step Unit id) (SigmaSession.Exact Unit id)
    SigmaSession.start
    [.loadRules [shellRule "SE-001" "sh"], .evaluateKernelEvent shellEvent 100,
      .evaluateKernelEvent shellEvent 200] := by
  have hproceeds : Along (SigmaSession.step Unit id) (SigmaSession.Proceeds Unit id)
      SigmaSession.start
      [.loadRules [shellRule "SE-001" "sh"], .evaluateKernelEvent shellEvent 100,
        .evaluateKernelEvent shellEvent 200] := by
    refine ⟨proceeds_of_isOk rfl ?_, proceeds_of_isOk (by decide +kernel) ?_,
      proceeds_of_isOk (by decide +kernel) ?_, trivial⟩
    · rintro call ⟨⟩
    · rintro call ⟨⟩
      exact Nat.zero_le _
    · rintro call ⟨⟩
      decide +kernel
  refine (SigmaSession.suppression_exact_iff Unit id hproceeds).mpr ?_
  have hunaliased : ∀ {s : SigmaSession} {op : SigmaOp}, s.Inv →
      s.engine.rules = [shellRule "SE-001" "sh"] → s.Unaliased Unit id op := by
    intro s op hs hrules
    refine SigmaSession.unaliased_of_ids hs ?_ ?_
    · intro i j q r hq hr _
      rw [hrules] at hq hr
      have hi := (List.getElem?_eq_some_iff.mp hq).1
      have hj := (List.getElem?_eq_some_iff.mp hr).1
      rw [List.length_singleton, Nat.lt_one_iff] at hi hj
      rw [hi, hj]
    · rw [hrules]
      decide
  have hloaded := SigmaSession.inv_start.step hproceeds.1
  refine ⟨?_, hunaliased hloaded rfl, hunaliased (hloaded.step hproceeds.2.1) ?_, trivial⟩
  · rintro call ⟨⟩
  · rw [SigmaSession.step_rules rfl]
    rfl

/-- Two rules with one id: the second is held back by the first on the event that both match. -/
theorem suppression_shared :
    let rules := [shellRule "SE-001" "sh", shellRule "SE-001" "sh"]
    let ops := [SigmaOp.loadRules rules, SigmaOp.evaluateKernelEvent shellEvent 100]
    Along (SigmaSession.step Unit id) (SigmaSession.Proceeds Unit id) SigmaSession.start ops ∧
      ¬ Along (SigmaSession.step Unit id) (SigmaSession.Exact Unit id) SigmaSession.start ops := by
  intro rules ops
  constructor
  · refine ⟨proceeds_of_isOk rfl ?_, proceeds_of_isOk (by decide +kernel) ?_, trivial⟩
    · rintro call ⟨⟩
    · rintro call ⟨⟩
      exact Nat.zero_le _
  · rintro ⟨-, hexact, -⟩
    have hsecond := hexact _ rfl 1 (shellRule "SE-001" "sh") rfl rfl rfl (by decide)
    have hpositions : ((SigmaSession.start.step Unit id (.loadRules rules)).firings Unit id
        (.evaluateKernelEvent shellEvent 100)).map Firing.position = [0] := by
      decide +kernel
    have hmatches : detectionMatches Unit id (shellRule "SE-001" "sh")
        (kernelEventToSigmaFields shellEvent).1 = true := by
      decide +kernel
    obtain ⟨f, hf, hone⟩ := hsecond.mpr ⟨hmatches, fun ⟨p, hp, _⟩ => absurd hp List.not_mem_nil⟩
    have hzero := List.mem_map_of_mem (f := Firing.position) hf
    rw [hpositions, hone] at hzero
    exact absurd hzero (by decide)

end Wardex.Sigma
