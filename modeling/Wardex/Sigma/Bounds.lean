import Wardex.Sigma.Suppression

/-! Where the evaluation of a rule reads out of bounds: each index and each slice of the source is
checked, and the only one that can fail is the first word of a condition without words.  Whether
the memory is asked before the detection or after it makes no difference to the matches or to the
memory, only to which conditions are looked at. -/

namespace Wardex.Sigma

open Wardex.Lib Wardex.Lib.Throttle Wardex.Policy

section

/-- `parts[i]`. -/
def wordAt (parts : List String) (i : Nat) : Except Panic String :=
  match parts[i]? with
  | some word => .ok word
  | none => .error (.indexOutOfBounds parts.length i)

/-- `&pat[1..pat.len() - 1]`, of a text between two characters of one byte. -/
def innerSlice (pat : List Char) : Except Panic (List Char) :=
  if 1 ≤ pat.length - 1 then .ok pat.tail.dropLast
  else .error (.indexOutOfBounds (pat.length - 1) 1)

def reMatchesChecked (v pat : String) : Except Panic Bool :=
  let chars := pat.toList
  let opening := ['\\', '\\', '(']
  let closing := [')', '\\', '\\']
  let body := chars.drop opening.length
  if opening <+: chars ∧ closing <:+ body then
    .ok (((body.take (body.length - closing.length)).splitOn '|').any fun alt =>
      textContains v (String.ofList (['\\'] ++ alt ++ ['\\'])))
  else if '|' ∈ chars ∧ chars.head? = some '(' ∧ chars.getLast? = some ')' then
    (innerSlice chars).map fun inner =>
      (inner.splitOn '|').any fun alt => textContains v (String.ofList alt)
  else .ok (textContains v pat)

/-- An alternation has at least the parentheses and a bar. -/
theorem reMatchesChecked_eq (v pat : String) : reMatchesChecked v pat = .ok (reMatches v pat) := by
  unfold reMatchesChecked reMatches
  dsimp only
  split_ifs with hescaped hgroup
  · rfl
  · obtain ⟨hbar, hhead, -⟩ := hgroup
    have hlength : 1 ≤ pat.toList.length - 1 := by
      obtain ⟨more, hmore⟩ := List.head?_eq_some_iff.mp hhead
      rw [hmore] at hbar ⊢
      have hmem : '|' ∈ more := (List.mem_cons.mp hbar).resolve_left (by decide)
      exact List.length_pos_of_mem hmem
    rw [innerSlice, if_pos hlength]
    rfl
  · rfl

theorem wordAt_eq {parts : List String} {i : Nat} (h : i < parts.length) :
    wordAt parts i = .ok parts[i] := by
  rw [wordAt, List.getElem?_eq_getElem h]

section

variable (F : Type) [F64 F] (toLowercase : String → String)

def FieldMatcher.holdsChecked (m : FieldMatcher) (fields : Table String) : Except Panic Bool :=
  match m.modifier, fields m.field with
  | .re, some v => m.values.anyM (reMatchesChecked v)
  | _, _ => .ok (m.holds F toLowercase fields)

def evaluateSelectionChecked (fields : Table String) :
    List FieldMatcher → Except Panic (Option (List (String × String)))
  | [] => .ok (some [])
  | m :: matchers => do
    if ← m.holdsChecked F toLowercase fields then
      let matched ← evaluateSelectionChecked fields matchers
      return matched.map (((fields m.field).map (Prod.mk m.field)).toList ++ ·)
    else return none

namespace Detection

variable (d : Detection) (fields : Table String)

def selectChecked (name : String) : Except Panic (Option (List (String × String))) :=
  match d.selections name with
  | none => .ok none
  | some matchers => evaluateSelectionChecked F toLowercase fields matchers

/-- The loop for conditions with an `or`: the matched fields of the selections that match. -/
def orLoop : List String → Except Panic (List (List (String × String)))
  | [] => .ok []
  | part :: rest =>
    if part = "or" then orLoop rest
    else do
      let matched ← d.selectChecked F toLowercase fields part
      let hits ← orLoop rest
      return matched.toList ++ hits

/-- The loop for conditions with an `and` and no `or`, from the word with index `i`. -/
def andLoop (parts : List String) (i : Nat) :
    Except Panic (Option (List (String × String))) :=
  if i < parts.length then do
    if (← wordAt parts i) = "and" then andLoop parts (i + 1)
    else if (← wordAt parts i) = "not" then
      if i + 1 < parts.length then
        match d.filters (← wordAt parts (i + 1)) with
        | some matchers =>
          if (← evaluateSelectionChecked F toLowercase fields matchers).isSome then return none
          else andLoop parts (i + 1 + 1)
        | none =>
          if (← d.selectChecked F toLowercase fields (← wordAt parts (i + 1))).isSome then
            return none
          else andLoop parts (i + 1 + 1)
      else andLoop parts (i + 1 + 1)
    else
      match ← d.selectChecked F toLowercase fields (← wordAt parts i) with
      | none => return none
      | some matched =>
        let rest ← andLoop parts (i + 1)
        return rest.map (matched ++ ·)
  else return some []
termination_by parts.length - i

end Detection

variable {F toLowercase} {fields : Table String}

theorem FieldMatcher.holdsChecked_eq (m : FieldMatcher) :
    m.holdsChecked F toLowercase fields = .ok (m.holds F toLowercase fields) := by
  unfold FieldMatcher.holdsChecked
  split
  · rename_i v hmodifier hfield
    have hany : m.values.anyM (fun pat => (.ok (reMatches v pat) : Except Panic Bool)) =
        .ok (m.values.any (reMatches v)) := List.anyM_pure
    rw [funext (reMatchesChecked_eq v), hany, FieldMatcher.holds, hfield]
    simp only [Option.any_some, hmodifier]
  · rfl

theorem evaluateSelectionChecked_eq (matchers : List FieldMatcher) :
    evaluateSelectionChecked F toLowercase fields matchers =
      .ok (evaluateSelection F toLowercase fields matchers) := by
  induction matchers with
  | nil => rfl
  | cons m matchers ih =>
    rw [evaluateSelectionChecked, FieldMatcher.holdsChecked_eq, evaluateSelection, ih]
    cases m.holds F toLowercase fields <;> rfl

namespace Detection

variable {d : Detection}

theorem selectChecked_eq (name : String) :
    d.selectChecked F toLowercase fields name = .ok (d.select F toLowercase fields name) := by
  unfold selectChecked select
  cases d.selections name with
  | none => rfl
  | some matchers => exact evaluateSelectionChecked_eq matchers

theorem orLoop_eq (parts : List String) : d.orLoop F toLowercase fields parts =
    .ok ((parts.filter fun part => part ≠ "or").filterMap (d.select F toLowercase fields)) := by
  induction parts with
  | nil => rfl
  | cons part rest ih =>
    rw [orLoop]
    by_cases hor : part = "or"
    · rw [if_pos hor, ih, List.filter_cons_of_neg (by simp [hor])]
    · rw [if_neg hor, selectChecked_eq, ih, List.filter_cons_of_pos (by simp [hor])]
      cases hselect : d.select F toLowercase fields part with
      | none => rw [List.filterMap_cons_none hselect]; rfl
      | some matched => rw [List.filterMap_cons_some hselect]; rfl

/-- The cursor never passes the last word before a word is read. -/
theorem andLoop_eq (parts : List String) (i : Nat) : d.andLoop F toLowercase fields parts i =
    .ok (d.evaluateAnd F toLowercase fields (parts.drop i)) := by
  generalize hn : parts.length - i = n
  induction n using Nat.strongRecOn generalizing i with
  | ind n ih =>
    rw [andLoop]
    by_cases hi : i < parts.length
    · have hnext := ih (parts.length - (i + 1)) (by omega) (i + 1) rfl
      have hafter := ih (parts.length - (i + 1 + 1)) (by omega) (i + 1 + 1) rfl
      rw [if_pos hi, wordAt_eq hi, List.drop_eq_getElem_cons hi, evaluateAnd.eq_def, hnext, hafter]
      simp only [bind, Except.bind, pure, Except.pure, selectChecked_eq,
        evaluateSelectionChecked_eq]
      by_cases hand : parts[i] = "and"
      · rw [if_pos hand, if_pos hand]
      rw [if_neg hand, if_neg hand]
      by_cases hnot : parts[i] = "not"
      · rw [if_pos hnot, if_pos hnot]
        by_cases hi' : i + 1 < parts.length
        · rw [if_pos hi', wordAt_eq hi', List.drop_eq_getElem_cons hi']
          cases hfilter : d.filters parts[i + 1] with
          | none => simp only [hfilter]; split_ifs <;> rfl
          | some matchers => simp only [hfilter]; split_ifs <;> rfl
        · rw [if_neg hi', List.drop_eq_nil_of_le (Nat.le_of_not_lt hi'),
            List.drop_eq_nil_of_le (by omega)]
          rfl
      · rw [if_neg hnot, if_neg hnot]
        cases d.select F toLowercase fields parts[i] <;> rfl
    · rw [if_neg hi, List.drop_eq_nil_of_le (Nat.le_of_not_lt hi)]
      rfl

end Detection

variable (F toLowercase)

/-- `evaluateRule` with each access checked. -/
def evaluateRuleChecked (rule : SigmaRule) (fields : Table String) :
    Except Panic (Option (List (String × String))) :=
  let d := rule.detection
  let parts := splitWhitespace d.condition
  if parts.length = 1 then do
    d.selectChecked F toLowercase fields (← wordAt parts 0)
  else if "or" ∈ parts then do
    let hits ← d.orLoop F toLowercase fields parts
    return if hits = [] then none else some hits.flatten
  else if "and" ∈ parts then d.andLoop F toLowercase fields parts 0
  else do
    d.selectChecked F toLowercase fields (← wordAt parts 0)

variable {F toLowercase}

theorem evaluateRuleChecked_eq (rule : SigmaRule) :
    evaluateRuleChecked F toLowercase rule fields = evaluateRule F toLowercase rule fields := by
  unfold evaluateRuleChecked evaluateRule
  dsimp only
  cases hparts : splitWhitespace rule.detection.condition with
  | nil => rfl
  | cons first rest =>
    cases rest with
    | nil => exact rule.detection.selectChecked_eq first
    | cons second rest =>
      rw [if_neg (by simp)]
      dsimp only
      rw [Detection.orLoop_eq, Detection.andLoop_eq, List.drop_zero]
      split_ifs
      · rfl
      · rfl
      · exact rule.detection.selectChecked_eq first

/-- The condition has no word. -/
def SigmaRule.Blank (rule : SigmaRule) : Prop := splitWhitespace rule.detection.condition = []

instance (rule : SigmaRule) : Decidable rule.Blank := inferInstanceAs (Decidable (_ = _))

variable (F toLowercase fields) in
theorem evaluateRule_ok_iff (rule : SigmaRule) :
    (∃ r, evaluateRule F toLowercase rule fields = .ok r) ↔ ¬ rule.Blank := by
  unfold evaluateRule SigmaRule.Blank
  dsimp only
  cases hparts : splitWhitespace rule.detection.condition with
  | nil => exact iff_of_false (fun ⟨r, h⟩ => by cases h) (not_not.mpr rfl)
  | cons first rest =>
    refine iff_of_true ?_ (List.cons_ne_nil first rest)
    cases rest with
    | nil => exact ⟨_, rfl⟩
    | cons second rest =>
      dsimp only
      split_ifs <;> exact ⟨_, rfl⟩

theorem evaluateRule_blank {rule : SigmaRule} (h : rule.Blank) :
    evaluateRule F toLowercase rule fields = .error (.indexOutOfBounds 0 0) := by
  unfold evaluateRule
  dsimp only
  rw [h]
  rfl

variable {call : Call} {suppression : Table Nat}

/-- The rule is asked about the event. -/
def Candidate (call : Call) (rule : SigmaRule) : Prop :=
  rule.enabled = true ∧ rule.logsource.category = call.category

instance (call : Call) (rule : SigmaRule) : Decidable (Candidate call rule) :=
  inferInstanceAs (Decidable (_ ∧ _))

variable (F toLowercase call suppression) in
/-- The memory holds the rule at this position back when its turn comes. -/
def HeldBack (rules : List (SigmaRule × Nat)) (i : Nat) (rule : SigmaRule) : Prop :=
  0 < rule.suppressForSecs ∧
    Blocked (turn call.now suppression (requests F toLowercase call (rules.take i))).1
      (suppressionKey rule.id call.hostname) call.now rule.suppressForSecs

theorem exists_map_ok {ε α β : Type} {f : α → β} {x : Except ε α} :
    (∃ r, x.map f = .ok r) ↔ ∃ r, x = .ok r := by
  cases x with
  | error e => exact iff_of_false (fun ⟨r, h⟩ => by cases h) fun ⟨r, h⟩ => by cases h
  | ok a => exact iff_of_true ⟨_, rfl⟩ ⟨_, rfl⟩

variable (call) in
/-- Each candidate is evaluated, whatever the memory holds. -/
theorem kernelLoop_ok_iff (rules : List (SigmaRule × Nat)) :
    (∃ r, kernelLoop F toLowercase call.fields call.hostname call.now suppression rules = .ok r) ↔
      ∀ p ∈ rules, ¬ p.1.Blank := by
  induction rules generalizing suppression with
  | nil => exact iff_of_true ⟨_, rfl⟩ fun p hp => absurd hp List.not_mem_nil
  | cons p rules ih =>
    rw [List.forall_mem_cons, ← evaluateRule_ok_iff F toLowercase call.fields, kernelLoop]
    cases evaluateRule F toLowercase p.1 call.fields with
    | error e =>
      refine iff_of_false ?_ ?_
      · rintro ⟨r, h⟩
        cases h
      · rintro ⟨⟨r, h⟩, -⟩
        cases h
    | ok matched =>
      rw [and_iff_right ⟨_, rfl⟩]
      cases matched with
      | none => exact ih
      | some matchedFields =>
        dsimp only
        split_ifs
        · exact ih
        · exact exists_map_ok.trans ih
        · exact exists_map_ok.trans ih

theorem requests_cons (p : SigmaRule × Nat) (rules : List (SigmaRule × Nat)) :
    requests F toLowercase call (p :: rules) =
      requests F toLowercase call [p] ++ requests F toLowercase call rules := by
  rw [requests, requests, requests, ← List.map_append, ← List.filter_append]
  rfl

/-- After the first rule, the memory is the one that its request leaves. -/
theorem heldBack_succ (p : SigmaRule × Nat) (rules : List (SigmaRule × Nat)) (i : Nat)
    (rule : SigmaRule) :
    HeldBack F toLowercase call suppression (p :: rules) (i + 1) rule ↔
      HeldBack F toLowercase call
        (turn call.now suppression (requests F toLowercase call [p])).1 rules i rule := by
  unfold HeldBack
  rw [List.take_succ_cons, requests_cons, turn_append]

theorem forall_heldBack_cons (p : SigmaRule × Nat) (rules : List (SigmaRule × Nat)) :
    (∀ i q, (p :: rules)[i]? = some q → Candidate call q.1 → q.1.Blank →
        HeldBack F toLowercase call suppression (p :: rules) i q.1) ↔
      (Candidate call p.1 → p.1.Blank → 0 < p.1.suppressForSecs ∧
        Blocked suppression (suppressionKey p.1.id call.hostname) call.now p.1.suppressForSecs) ∧
      ∀ i q, rules[i]? = some q → Candidate call q.1 → q.1.Blank →
        HeldBack F toLowercase call
          (turn call.now suppression (requests F toLowercase call [p])).1 rules i q.1 := by
  constructor
  · intro h
    refine ⟨h 0 p rfl, fun i q hq hcandidate hblank => ?_⟩
    exact (heldBack_succ p rules i q.1).mp (h (i + 1) q hq hcandidate hblank)
  · rintro ⟨hfirst, hrest⟩ i q hq hcandidate hblank
    cases i with
    | zero =>
      obtain rfl := Option.some.inj hq
      exact hfirst hcandidate hblank
    | succ i => exact (heldBack_succ p rules i q.1).mpr (hrest i q hq hcandidate hblank)

theorem turn_requests_of_not {p : SigmaRule × Nat}
    (h : Applies F toLowercase call p.1 → 0 < p.1.suppressForSecs →
      Blocked suppression (suppressionKey p.1.id call.hostname) call.now p.1.suppressForSecs) :
    (turn call.now suppression (requests F toLowercase call [p])).1 = suppression := by
  by_cases happlies : Applies F toLowercase call p.1 ∧ 0 < p.1.suppressForSecs
  · rw [requests_cons_of happlies, turn]
    exact congrArg Prod.fst (if_pos (h happlies.1 happlies.2))
  · rw [requests_cons_of_not happlies]
    rfl

variable (call) in
theorem evaluateLoop_ok_iff (rules : List (SigmaRule × Nat)) :
    (∃ r, evaluateLoop F toLowercase call.fields call.hostname call.category call.now suppression
        rules = .ok r) ↔
      ∀ i p, rules[i]? = some p → Candidate call p.1 → p.1.Blank →
        HeldBack F toLowercase call suppression rules i p.1 := by
  induction rules generalizing suppression with
  | nil => exact iff_of_true ⟨_, rfl⟩ fun i p hp => by cases hp
  | cons p rules ih =>
    rw [forall_heldBack_cons]
    by_cases hasked : Asked call suppression p.1
    · -- the detection is evaluated, which a blank condition ends
      rw [evaluateLoop_of_asked hasked]
      have hok := evaluateRule_ok_iff F toLowercase call.fields p.1
      cases hrule : evaluateRule F toLowercase p.1 call.fields with
      | error e =>
        rw [hrule] at hok
        refine iff_of_false (fun ⟨r, h⟩ => by cases h) fun h => ?_
        have hblank : p.1.Blank := by
          by_contra hblank
          obtain ⟨r, h⟩ := hok.mpr hblank
          cases h
        exact hasked.2.2 (h.1 ⟨hasked.1, hasked.2.1⟩ hblank)
      | ok matched =>
        have hdetection := detectionMatches_of_ok hrule
        rw [and_iff_right fun _ hblank => absurd hblank (hok.mp ⟨_, hrule⟩)]
        cases matched with
        | none =>
          rw [turn_requests_of_not fun h => Bool.noConfusion (hdetection.symm.trans h.2.2)]
          exact ih
        | some matchedFields =>
          have happlies : Applies F toLowercase call p.1 := ⟨hasked.1, hasked.2.1, hdetection⟩
          refine exists_map_ok.trans ?_
          split_ifs with hwindow
          · have hpassed : (turn call.now suppression (requests F toLowercase call [p])).1 =
                passed suppression (suppressionKey p.1.id call.hostname) call.now := by
              rw [requests_cons_of ⟨happlies, hwindow⟩, turn]
              exact congrArg Prod.fst (if_neg fun h => hasked.2.2 ⟨hwindow, h⟩)
            rw [hpassed]
            exact ih
          · rw [turn_requests_of_not fun _ h => absurd h hwindow]
            exact ih
    · -- the rule is no candidate, or the memory holds it back and stays as it is
      rw [evaluateLoop_of_not_asked hasked,
        turn_requests_of_not fun h _ => (blocked_of_not_asked hasked h.1 h.2.1).2,
        and_iff_right fun h _ => blocked_of_not_asked hasked h.1 h.2]
      exact ih

def ocsfCall (event : OcsfEvent) (now : Nat) : Call where
  fields := extractFields event
  hostname := (extractFields event "device.hostname").getD ""
  category := eventCategory event
  now := now

def kernelCall (event : KernelEvent) (now : Nat) : Call where
  fields := (kernelEventToSigmaFields event).1
  hostname := ((kernelEventToSigmaFields event).1 "device.hostname").getD ""
  category := (kernelEventToSigmaFields event).2
  now := now

variable (F toLowercase)

theorem evaluate_ok_iff (engine : SigmaEngine) (event : OcsfEvent) (now : Nat) :
    (∃ r, engine.evaluate F toLowercase event now = .ok r) ↔
      ∀ i rule, engine.rules[i]? = some rule → Candidate (ocsfCall event now) rule → rule.Blank →
        HeldBack F toLowercase (ocsfCall event now) engine.suppression engine.rules.zipIdx i
          rule := by
  refine exists_map_ok.trans ((evaluateLoop_ok_iff (ocsfCall event now) _).trans ?_)
  constructor
  · intro h i rule hrule
    refine h i (rule, i) ?_
    rw [List.getElem?_zipIdx, hrule, Option.map_some, Nat.zero_add]
  · intro h i p hp
    rw [List.getElem?_zipIdx] at hp
    obtain ⟨rule, hrule, rfl⟩ := Option.map_eq_some_iff.mp hp
    exact h i rule hrule

theorem evaluateKernelEvent_ok_iff (engine : SigmaEngine) (event : KernelEvent) (now : Nat) :
    (∃ r, engine.evaluateKernelEvent F toLowercase event now = .ok r) ↔
      ∀ rule ∈ engine.rules, Candidate (kernelCall event now) rule → ¬ rule.Blank := by
  refine exists_map_ok.trans ((kernelLoop_ok_iff (kernelCall event now) _).trans ?_)
  constructor
  · intro h rule hrule hcandidate
    obtain ⟨i, hi⟩ := List.mem_iff_getElem?.mp hrule
    refine h (rule, i) (List.mem_filter.mpr ⟨List.mem_zipIdx_iff_getElem?.mpr hi, ?_⟩)
    exact decide_eq_true hcandidate
  · intro h p hp
    obtain ⟨hmem, hcandidate⟩ := List.mem_filter.mp hp
    exact h p.1 (List.mem_of_getElem? (List.mem_zipIdx_iff_getElem?.mp hmem))
      (of_decide_eq_true hcandidate)

/-- Every access is in bounds except the first word of a blank condition: a rule is evaluated
exactly when its condition has a word, and an event when that holds of each rule asked about it,
or, where the memory is asked first, of each one not held back. -/
theorem evaluation_returns_iff :
    (∀ rule fields, (∃ r, evaluateRuleChecked F toLowercase rule fields = .ok r) ↔ ¬ rule.Blank) ∧
    (∀ engine event now, (∃ r, SigmaEngine.evaluate F toLowercase engine event now = .ok r) ↔
      ∀ i rule, engine.rules[i]? = some rule → Candidate (ocsfCall event now) rule → rule.Blank →
        HeldBack F toLowercase (ocsfCall event now) engine.suppression engine.rules.zipIdx i rule) ∧
    ∀ engine event now,
      (∃ r, SigmaEngine.evaluateKernelEvent F toLowercase engine event now = .ok r) ↔
        ∀ rule ∈ engine.rules, Candidate (kernelCall event now) rule → ¬ rule.Blank := by
  refine ⟨fun rule fields => ?_, evaluate_ok_iff F toLowercase,
    evaluateKernelEvent_ok_iff F toLowercase⟩
  rw [evaluateRuleChecked_eq]
  exact evaluateRule_ok_iff F toLowercase fields rule

end

/-- A rule with a condition of one space. -/
def blankRule : SigmaRule :=
  { ruleOf { selections := Table.empty, filters := Table.empty, condition := " " } with
    id := "SE-001"
    logsource := { category := "process_creation", product := none, service := none }
    suppressForSecs := 3600 }

theorem blank_condition_panics :
    ¬ (∃ r, evaluateRuleChecked Unit id blankRule Table.empty = .ok r) ∧
      ¬ ∃ r, (SigmaEngine.new.addRule blankRule).evaluateKernelEvent Unit id shellEvent 100 =
        .ok r := by
  constructor
  · rintro ⟨r, h⟩
    rw [evaluateRuleChecked_eq, evaluateRule_blank (by decide)] at h
    cases h
  · rw [evaluateKernelEvent_ok_iff]
    intro h
    exact h blankRule List.mem_cons_self (by decide) (by decide)

end

/-! ## The two ways to evaluate an event -/

section

variable {F : Type} [F64 F] {toLowercase : String → String} (call : Call)
  {suppression : Table Nat} {rules : List (SigmaRule × Nat)}

/-- `candidates` of `evaluate_kernel_event`. -/
def candidates (rules : List (SigmaRule × Nat)) : List (SigmaRule × Nat) :=
  rules.filter fun p => p.1.enabled ∧ p.1.logsource.category = call.category

variable {call} in
theorem candidates_cons_of {p : SigmaRule × Nat} (h : Candidate call p.1) :
    candidates call (p :: rules) = p :: candidates call rules :=
  List.filter_cons_of_pos (decide_eq_true h)

variable {call} in
theorem candidates_cons_of_not {p : SigmaRule × Nat} (h : ¬ Candidate call p.1) :
    candidates call (p :: rules) = candidates call rules :=
  List.filter_cons_of_neg fun hp => h (of_decide_eq_true hp)

/-- What the caller sees of a loop that returns: the memory and the matches. -/
def outcome (x : Except Panic (Table Nat × List Firing)) :
    Option (Table Nat × List RuleMatch) :=
  x.toOption.map fun r => (r.1, r.2.map Firing.ruleMatch)

/-- When the loop that evaluates every candidate returns, the one that asks the memory first
returns the same. -/
theorem evaluateLoop_of_kernelLoop {r : Table Nat × List Firing}
    (h : kernelLoop F toLowercase call.fields call.hostname call.now suppression
      (candidates call rules) = .ok r) :
    evaluateLoop F toLowercase call.fields call.hostname call.category call.now suppression rules =
      .ok r := by
  induction rules generalizing suppression r with
  | nil => exact h
  | cons p rules ih =>
    by_cases hcandidate : Candidate call p.1
    · rw [candidates_cons_of hcandidate, kernelLoop] at h
      cases hrule : evaluateRule F toLowercase p.1 call.fields with
      | error e =>
        rw [hrule] at h
        cases h
      | ok matched =>
        rw [hrule] at h
        by_cases hasked : Asked call suppression p.1
        · rw [evaluateLoop_of_asked hasked, hrule]
          cases matched with
          | none => exact ih h
          | some matchedFields =>
            dsimp only [Except.bind, Option.elim] at h ⊢
            split_ifs at h ⊢ with hwindow hblocked
            · exact absurd ⟨hwindow, hblocked⟩ hasked.2.2
            · obtain ⟨rest, hrest, rfl⟩ := map_ok h
              rw [ih hrest]
              rfl
            · obtain ⟨rest, hrest, rfl⟩ := map_ok h
              rw [ih hrest]
              rfl
        · -- held back: the other loop finds this out after the match, and goes on as well
          obtain ⟨hwindow, hblocked⟩ :=
            blocked_of_not_asked hasked hcandidate.1 hcandidate.2
          rw [evaluateLoop_of_not_asked hasked]
          cases matched with
          | none => exact ih h
          | some matchedFields =>
            dsimp only at h
            rw [if_pos hwindow, if_pos hblocked] at h
            exact ih h
    · have hasked : ¬ Asked call suppression p.1 := fun h => hcandidate ⟨h.1, h.2.1⟩
      rw [candidates_cons_of_not hcandidate] at h
      rw [evaluateLoop_of_not_asked hasked]
      exact ih h

variable (F toLowercase)

end

end Wardex.Sigma
