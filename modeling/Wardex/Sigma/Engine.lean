import Wardex.Lib.Throttle
import Wardex.Sigma.Events

/-! The rule engine: its rules, the memory of when they last fired, and the two ways to
evaluate an event.  A match is kept with the rule that fired and its position in the engine,
which the caller of the source does not see. -/

namespace Wardex.Sigma

open Wardex.Lib Wardex.Lib.Throttle Wardex.Policy

structure SigmaEngine where
  rules : List SigmaRule
  suppression : Table Nat

structure Firing where
  rule : SigmaRule
  position : Nat
  matchedFields : List (String × String)

def Firing.ruleMatch (f : Firing) : RuleMatch where
  ruleId := f.rule.id
  ruleTitle := f.rule.title
  level := f.rule.level
  matchedFields := f.matchedFields
  attack := f.rule.attack

/-- `"{id}:{hostname}"`. -/
def suppressionKey (id hostname : String) : String := id ++ ":" ++ hostname

section Loops

variable (F : Type) [F64 F] (toLowercase : String → String) (fields : Table String)
  (hostname category : String) (now : Nat)

/-- The loop of `evaluate`: the memory is asked before the detection. -/
def evaluateLoop : Table Nat → List (SigmaRule × Nat) → Except Panic (Table Nat × List Firing)
  | suppression, [] => .ok (suppression, [])
  | suppression, (rule, position) :: rest =>
    let key := suppressionKey rule.id hostname
    if rule.enabled = false then evaluateLoop suppression rest
    else if rule.logsource.category ≠ category then evaluateLoop suppression rest
    else if 0 < rule.suppressForSecs ∧ Blocked suppression key now rule.suppressForSecs then
      evaluateLoop suppression rest
    else
      match evaluateRule F toLowercase rule fields with
      | .error p => .error p
      | .ok none => evaluateLoop suppression rest
      | .ok (some matchedFields) =>
        let suppression := if 0 < rule.suppressForSecs then passed suppression key now
          else suppression
        (evaluateLoop suppression rest).map fun r => (r.1, ⟨rule, position, matchedFields⟩ :: r.2)

/-- The loop of `evaluate_kernel_event`, over the candidates: the detection is asked before the
memory. -/
def kernelLoop : Table Nat → List (SigmaRule × Nat) → Except Panic (Table Nat × List Firing)
  | suppression, [] => .ok (suppression, [])
  | suppression, (rule, position) :: rest =>
    let key := suppressionKey rule.id hostname
    match evaluateRule F toLowercase rule fields with
    | .error p => .error p
    | .ok none => kernelLoop suppression rest
    | .ok (some matchedFields) =>
      if 0 < rule.suppressForSecs then
        if Blocked suppression key now rule.suppressForSecs then kernelLoop suppression rest
        else
          (kernelLoop (passed suppression key now) rest).map fun r =>
            (r.1, ⟨rule, position, matchedFields⟩ :: r.2)
      else
        (kernelLoop suppression rest).map fun r => (r.1, ⟨rule, position, matchedFields⟩ :: r.2)

end Loops

namespace SigmaEngine

def new : SigmaEngine where
  rules := []
  suppression := Table.empty

def loadRules (engine : SigmaEngine) (rules : List SigmaRule) : SigmaEngine :=
  { engine with rules := engine.rules ++ rules }

def addRule (engine : SigmaEngine) (rule : SigmaRule) : SigmaEngine :=
  { engine with rules := engine.rules ++ [rule] }

def replaceRules (_engine : SigmaEngine) (rules : List SigmaRule) : SigmaEngine where
  rules := rules
  suppression := Table.empty

variable (F : Type) [F64 F] (toLowercase : String → String)

def evaluate (engine : SigmaEngine) (event : OcsfEvent) (nowEpoch : Nat) :
    Except Panic (SigmaEngine × List Firing) :=
  let fields := extractFields event
  let hostname := (fields "device.hostname").getD ""
  let category := eventCategory event
  (evaluateLoop F toLowercase fields hostname category nowEpoch engine.suppression
    engine.rules.zipIdx).map fun r => ({ engine with suppression := r.1 }, r.2)

def evaluateKernelEvent (engine : SigmaEngine) (event : KernelEvent) (nowEpoch : Nat) :
    Except Panic (SigmaEngine × List Firing) :=
  let fields := (kernelEventToSigmaFields event).1
  let category := (kernelEventToSigmaFields event).2
  let hostname := (fields "device.hostname").getD ""
  let candidates := engine.rules.zipIdx.filter fun p =>
    p.1.enabled ∧ p.1.logsource.category = category
  (kernelLoop F toLowercase fields hostname nowEpoch engine.suppression candidates).map fun r =>
    ({ engine with suppression := r.1 }, r.2)

end SigmaEngine

/-! ### What a loop does -/

section

variable (F : Type) [F64 F] (toLowercase : String → String)

def detectionMatches (rule : SigmaRule) (fields : Table String) : Bool :=
  match evaluateRule F toLowercase rule fields with
  | .ok (some _) => true
  | _ => false

/-- An event as a rule sees it, and the time it is evaluated at. -/
structure Call where
  fields : Table String
  hostname : String
  category : String
  now : Nat

/-- The rule is enabled, of the category of the event, and its detection matches. -/
def Applies (call : Call) (rule : SigmaRule) : Prop :=
  rule.enabled = true ∧ rule.logsource.category = call.category ∧
    detectionMatches F toLowercase rule call.fields = true

instance (call : Call) (rule : SigmaRule) : Decidable (Applies F toLowercase call rule) :=
  inferInstanceAs (Decidable (_ ∧ _ ∧ _))

def request (call : Call) (p : SigmaRule × Nat) : Request String (SigmaRule × Nat) where
  key := suppressionKey p.1.id call.hostname
  window := p.1.suppressForSecs
  owner := p

/-- The rules with a suppression window that would fire, as requests to the memory. -/
def requests (call : Call) (rules : List (SigmaRule × Nat)) :
    List (Request String (SigmaRule × Nat)) :=
  (rules.filter fun p => Applies F toLowercase call p.1 ∧ 0 < p.1.suppressForSecs).map
    (request call)

def Firing.owner (f : Firing) : SigmaRule × Nat := (f.rule, f.position)

/-- The memory serves the requests in order, and of the rules with a window those fire that it
lets through. -/
structure Serves (call : Call) (rules : List (SigmaRule × Nat))
    (suppression suppression' : Table Nat)
    (firings : List Firing) : Prop where
  memory : suppression' = (turn call.now suppression (requests F toLowercase call rules)).1
  fired : (firings.filter fun f => 0 < f.rule.suppressForSecs).map Firing.owner =
    (turn call.now suppression (requests F toLowercase call rules)).2.map Request.owner
  owners : ∀ f ∈ firings, f.owner ∈ rules

variable {F toLowercase} {call : Call} {suppression suppression' : Table Nat}
  {p : SigmaRule × Nat} {rules : List (SigmaRule × Nat)} {firings : List Firing}

theorem requests_cons_of_not (h : ¬ (Applies F toLowercase call p.1 ∧ 0 < p.1.suppressForSecs)) :
    requests F toLowercase call (p :: rules) = requests F toLowercase call rules := by
  rw [requests, List.filter_cons_of_neg (by simpa using h)]
  rfl

theorem requests_cons_of (h : Applies F toLowercase call p.1 ∧ 0 < p.1.suppressForSecs) :
    requests F toLowercase call (p :: rules) =
      request call p :: requests F toLowercase call rules := by
  rw [requests, List.filter_cons_of_pos (by simpa using h)]
  rfl

namespace Serves

theorem nil : Serves F toLowercase call [] suppression suppression [] where
  memory := rfl
  fired := rfl
  owners _ h := absurd h List.not_mem_nil

/-- A rule that does not apply, or that the memory holds back, leaves no trace. -/
theorem skip (h : Serves F toLowercase call rules suppression suppression' firings)
    (hp : Applies F toLowercase call p.1 → 0 < p.1.suppressForSecs ∧
      Blocked suppression (suppressionKey p.1.id call.hostname) call.now p.1.suppressForSecs) :
    Serves F toLowercase call (p :: rules) suppression suppression' firings := by
  have hturn : turn call.now suppression (requests F toLowercase call (p :: rules)) =
      turn call.now suppression (requests F toLowercase call rules) := by
    by_cases happlies : Applies F toLowercase call p.1
    · obtain ⟨hwindow, hblocked⟩ := hp happlies
      rw [requests_cons_of ⟨happlies, hwindow⟩, turn]
      exact if_pos hblocked
    · rw [requests_cons_of_not fun h => happlies h.1]
  refine ⟨?_, ?_, fun f hf => List.mem_cons_of_mem p (h.owners f hf)⟩
  · rw [hturn]
    exact h.memory
  · rw [hturn]
    exact h.fired

theorem owners_cons (h : Serves F toLowercase call rules suppression suppression' firings)
    (matchedFields : List (String × String)) :
    ∀ f ∈ ⟨p.1, p.2, matchedFields⟩ :: firings, Firing.owner f ∈ p :: rules := by
  intro f hf
  rcases List.mem_cons.mp hf with rfl | hf
  · exact List.mem_cons_self
  · exact List.mem_cons_of_mem p (h.owners f hf)

/-- A rule without a window fires and leaves no trace in the memory. -/
theorem fire_free (h : Serves F toLowercase call rules suppression suppression' firings)
    (hwindow : ¬ 0 < p.1.suppressForSecs) (matchedFields : List (String × String)) :
    Serves F toLowercase call (p :: rules) suppression suppression'
      (⟨p.1, p.2, matchedFields⟩ :: firings) := by
  have hrequests : requests F toLowercase call (p :: rules) = requests F toLowercase call rules :=
    requests_cons_of_not fun h => hwindow h.2
  refine ⟨?_, ?_, h.owners_cons matchedFields⟩
  · rw [hrequests]
    exact h.memory
  · rw [hrequests, List.filter_cons_of_neg (by simpa using hwindow)]
    exact h.fired

/-- A rule with a window that the memory lets through. -/
theorem fire (happlies : Applies F toLowercase call p.1) (hwindow : 0 < p.1.suppressForSecs)
    (hfree : ¬ Blocked suppression (suppressionKey p.1.id call.hostname) call.now
      p.1.suppressForSecs)
    (h : Serves F toLowercase call rules
      (passed suppression (suppressionKey p.1.id call.hostname) call.now) suppression' firings)
    (matchedFields : List (String × String)) :
    Serves F toLowercase call (p :: rules) suppression suppression'
      (⟨p.1, p.2, matchedFields⟩ :: firings) := by
  have hturn : turn call.now suppression (requests F toLowercase call (p :: rules)) =
      ((turn call.now (passed suppression (suppressionKey p.1.id call.hostname) call.now)
          (requests F toLowercase call rules)).1,
        request call p ::
          (turn call.now (passed suppression (suppressionKey p.1.id call.hostname) call.now)
            (requests F toLowercase call rules)).2) := by
    rw [requests_cons_of ⟨happlies, hwindow⟩, turn]
    exact if_neg hfree
  refine ⟨?_, ?_, h.owners_cons matchedFields⟩
  · rw [hturn]
    exact h.memory
  · rw [hturn, List.filter_cons_of_pos (by simpa using hwindow), List.map_cons, List.map_cons,
      h.fired]
    rfl

end Serves

theorem map_ok {ε α β : Type} {f : α → β} {x : Except ε α} {b : β} (h : x.map f = .ok b) :
    ∃ a, x = .ok a ∧ f a = b := by
  cases x with
  | error e => cases h
  | ok a => exact ⟨a, rfl, Except.ok.inj h⟩

theorem detectionMatches_of_ok {rule : SigmaRule} {fields : Table String}
    {r : Option (List (String × String))} (h : evaluateRule F toLowercase rule fields = .ok r) :
    detectionMatches F toLowercase rule fields = r.isSome := by
  rw [detectionMatches, h]
  cases r <;> rfl

/-- `evaluate` looks at the detection of the rule. -/
def Asked (call : Call) (suppression : Table Nat) (rule : SigmaRule) : Prop :=
  rule.enabled = true ∧ rule.logsource.category = call.category ∧
    ¬ (0 < rule.suppressForSecs ∧
      Blocked suppression (suppressionKey rule.id call.hostname) call.now rule.suppressForSecs)

theorem blocked_of_not_asked {rule : SigmaRule} (h : ¬ Asked call suppression rule)
    (henabled : rule.enabled = true) (hcategory : rule.logsource.category = call.category) :
    0 < rule.suppressForSecs ∧
      Blocked suppression (suppressionKey rule.id call.hostname) call.now rule.suppressForSecs := by
  by_contra hfree
  exact h ⟨henabled, hcategory, hfree⟩

theorem evaluateLoop_of_not_asked (h : ¬ Asked call suppression p.1) :
    evaluateLoop F toLowercase call.fields call.hostname call.category call.now suppression
        (p :: rules) =
      evaluateLoop F toLowercase call.fields call.hostname call.category call.now suppression
        rules := by
  rw [evaluateLoop]
  dsimp only
  by_cases henabled : p.1.enabled = false
  · exact if_pos henabled
  rw [if_neg henabled]
  by_cases hcategory : p.1.logsource.category ≠ call.category
  · exact if_pos hcategory
  rw [if_neg hcategory]
  exact if_pos (blocked_of_not_asked h (Bool.eq_true_of_not_eq_false henabled)
    (not_not.mp hcategory))

theorem evaluateLoop_of_asked (h : Asked call suppression p.1) :
    evaluateLoop F toLowercase call.fields call.hostname call.category call.now suppression
        (p :: rules) =
      (evaluateRule F toLowercase p.1 call.fields).bind fun matched =>
        matched.elim
          (evaluateLoop F toLowercase call.fields call.hostname call.category call.now suppression
            rules)
          fun matchedFields =>
            (evaluateLoop F toLowercase call.fields call.hostname call.category call.now
              (if 0 < p.1.suppressForSecs then
                passed suppression (suppressionKey p.1.id call.hostname) call.now
              else suppression) rules).map fun r =>
                (r.1, ⟨p.1, p.2, matchedFields⟩ :: r.2) := by
  obtain ⟨henabled, hcategory, hfree⟩ := h
  rw [evaluateLoop]
  dsimp only
  rw [if_neg (Bool.not_eq_false _ ▸ henabled), if_neg (not_not.mpr hcategory), if_neg hfree]
  cases evaluateRule F toLowercase p.1 call.fields with
  | error e => rfl
  | ok matched => cases matched <;> rfl

theorem evaluateLoop_serves (h : evaluateLoop F toLowercase call.fields call.hostname call.category
      call.now suppression rules = .ok (suppression', firings)) :
    Serves F toLowercase call rules suppression suppression' firings := by
  induction rules generalizing suppression firings with
  | nil =>
    obtain ⟨rfl, rfl⟩ := Prod.mk.inj (Except.ok.inj h)
    exact Serves.nil
  | cons p rules ih =>
    by_cases hasked : Asked call suppression p.1
    · rw [evaluateLoop_of_asked hasked] at h
      cases hrule : evaluateRule F toLowercase p.1 call.fields with
      | error e =>
        rw [hrule] at h
        cases h
      | ok r =>
        have hdetection := detectionMatches_of_ok hrule
        rw [hrule] at h
        cases r with
        | none =>
          exact (ih h).skip fun happlies => Bool.noConfusion (hdetection.symm.trans happlies.2.2)
        | some matchedFields =>
          obtain ⟨⟨memory, fired⟩, hrest, he⟩ := map_ok h
          obtain ⟨rfl, rfl⟩ := Prod.mk.inj he
          by_cases hwindow : 0 < p.1.suppressForSecs
          · rw [if_pos hwindow] at hrest
            have happlies : Applies F toLowercase call p.1 := ⟨hasked.1, hasked.2.1, hdetection⟩
            have hfree : ¬ Blocked suppression (suppressionKey p.1.id call.hostname) call.now
                p.1.suppressForSecs := fun hblocked => hasked.2.2 ⟨hwindow, hblocked⟩
            exact (ih hrest).fire happlies hwindow hfree matchedFields
          · rw [if_neg hwindow] at hrest
            exact (ih hrest).fire_free hwindow matchedFields
    · rw [evaluateLoop_of_not_asked hasked] at h
      exact (ih h).skip fun happlies => blocked_of_not_asked hasked happlies.1 happlies.2.1

theorem kernelLoop_serves
    (hrules : ∀ p ∈ rules, p.1.enabled = true ∧ p.1.logsource.category = call.category)
    (h : kernelLoop F toLowercase call.fields call.hostname call.now suppression rules =
      .ok (suppression', firings)) :
    Serves F toLowercase call rules suppression suppression' firings := by
  induction rules generalizing suppression firings with
  | nil =>
    obtain ⟨rfl, rfl⟩ := Prod.mk.inj (Except.ok.inj h)
    exact Serves.nil
  | cons p rules ih =>
    have hrest := fun q hq => hrules q (List.mem_cons_of_mem p hq)
    rw [kernelLoop] at h
    cases hrule : evaluateRule F toLowercase p.1 call.fields with
    | error e =>
      rw [hrule] at h
      cases h
    | ok r =>
      have hdetection := detectionMatches_of_ok hrule
      rw [hrule] at h
      cases r with
      | none =>
        exact (ih hrest h).skip fun happlies =>
          Bool.noConfusion (hdetection.symm.trans happlies.2.2)
      | some matchedFields =>
        obtain ⟨henabled, hcategory⟩ := hrules p List.mem_cons_self
        dsimp only at h
        split_ifs at h with hwindow hblocked
        · exact (ih hrest h).skip fun _ => ⟨hwindow, hblocked⟩
        · obtain ⟨⟨memory, fired⟩, hloop, he⟩ := map_ok h
          obtain ⟨rfl, rfl⟩ := Prod.mk.inj he
          exact (ih hrest hloop).fire ⟨henabled, hcategory, hdetection⟩ hwindow hblocked
            matchedFields
        · obtain ⟨⟨memory, fired⟩, hloop, he⟩ := map_ok h
          obtain ⟨rfl, rfl⟩ := Prod.mk.inj he
          exact (ih hrest hloop).fire_free hwindow matchedFields

end

end Wardex.Sigma
