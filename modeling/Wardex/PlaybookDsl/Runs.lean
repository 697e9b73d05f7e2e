import Mathlib.Data.List.Nodup
import Mathlib.Data.List.Perm.Subperm
import Wardex.PlaybookDsl.Branches

/-! Whole runs of an execution: that it ends, and what its variables are.  A condition goes on
with the head of a branch without looking whether it has been completed, and no node changes the
variables. -/

namespace Wardex.PlaybookDsl

open Wardex.Lib Wardex.Policy

variable {F : Type}

namespace PlaybookDefinition

def ids (d : PlaybookDefinition F) : List String := d.nodes.map PlaybookNode.nodeId

/-- The value that completing a node is to give to the variable. -/
def assignedBy (d : PlaybookDefinition F) (name id : String) : Option (Value F) :=
  match d.nodes.find? fun n => n.nodeId = id with
  | some (.setVariable _ variableName value) => if variableName = name then some value else none
  | _ => none

/-- The value that the last completed assignment is to give to the variable. -/
def assigned (d : PlaybookDefinition F) (completed : List String) (name : String) :
    Option (Value F) :=
  completed.reverse.findSome? (d.assignedBy name)

end PlaybookDefinition

variable [F64 F]

/-! ## Executions end -/

namespace ExecutionContext

/-- A condition goes on with a node that has not been completed; with an id that no node has only
if none has been come to before. -/
def GoesOnFresh (ofInt : Int → F) (d : PlaybookDefinition F) (ctx : ExecutionContext F) : Prop :=
  ∀ current ∈ ctx.currentNode, ∀ p ∈ d.branches ofInt ctx.vars current, ∀ x ∈ p.1.head?,
    x ∉ ctx.completedNodes ++ [current] ∧
      (x ∈ d.ids ∨ ∀ y ∈ ctx.completedNodes ++ [current], y ∈ d.ids)

instance (ofInt : Int → F) (d : PlaybookDefinition F) (ctx : ExecutionContext F) :
    Decidable (ctx.GoesOnFresh ofInt d) :=
  inferInstanceAs (Decidable (∀ current ∈ ctx.currentNode, ∀ p ∈ d.branches _ _ current, _))

def entered (ctx : ExecutionContext F) : List String :=
  ctx.completedNodes ++ ctx.currentNode.toList

/-- An execution that `n` calls have advanced. -/
structure Progress (d : PlaybookDefinition F) (ctx : ExecutionContext F) (n : ℕ) : Prop where
  distinct : ctx.entered.Nodup
  unknown : ctx.entered.countP (· ∉ d.ids) ≤ 1
  counted : ctx.status ≠ .completed →
    n = ctx.completedNodes.length ∧ (ctx.completedNodes = [] ∨ ctx.currentNode ≠ none)

variable {ofInt : Int → F} {ctx : ExecutionContext F} {d : PlaybookDefinition F} {n : ℕ}

omit [F64 F]

/-- Distinct ids of which one is unknown are at most one more than there are nodes. -/
theorem Progress.length_entered_le (h : ctx.Progress d n) :
    ctx.entered.length ≤ d.nodes.length + 1 := by
  have hknown : (ctx.entered.filter (· ∈ d.ids)).length ≤ d.ids.length := by
    refine (List.Nodup.subperm (h.distinct.filter _) fun x hx => ?_).length_le
    simpa using (List.mem_filter.mp hx).2
  have hsplit := List.length_eq_countP_add_countP (fun x => decide (x ∈ d.ids)) (l := ctx.entered)
  have hids : d.ids.length = d.nodes.length := List.length_map ..
  have hunknown := h.unknown
  simp only [List.countP_eq_length_filter, decide_not, Bool.decide_eq_true] at hsplit hunknown
  omega

theorem Progress.nodup (h : ctx.Progress d n) : ctx.completedNodes.Nodup :=
  (List.nodup_append.mp h.distinct).1

theorem Progress.completed (h : ctx.Progress d n) (hn : d.nodes.length + 1 ≤ n) :
    ctx.status = .completed := by
  by_contra hstatus
  obtain ⟨rfl, hnil | hcurrent⟩ := h.counted hstatus
  · simp [hnil] at hn
  · have hle := h.length_entered_le
    obtain ⟨x, hx⟩ := Option.ne_none_iff_exists'.mp hcurrent
    rw [entered, hx, Option.toList_some, List.length_append, List.length_singleton] at hle
    omega

theorem nextNode_fresh [F64 F] {current x : String} (hfresh : ctx.GoesOnFresh ofInt d)
    (hcur : ctx.currentNode = some current) (hx : ctx.nextNode ofInt d current = some x) :
    x ∉ ctx.completedNodes ++ [current] ∧
      (x ∈ d.ids ∨ ∀ y ∈ ctx.completedNodes ++ [current], y ∈ d.ids) := by
  rw [nextNode] at hx
  cases hb : d.branches ofInt ctx.vars current with
  | some p =>
    rw [hb] at hx
    exact hfresh current hcur p hb x hx
  | none =>
    rw [hb] at hx
    obtain ⟨before, after, hnodes, hnew, -⟩ := findNextNode_eq_some.mp hx
    refine ⟨hnew, .inl ?_⟩
    rw [PlaybookDefinition.ids, hnodes]
    exact List.mem_append_right before List.mem_cons_self

theorem Progress.advance [F64 F] (h : ctx.Progress d n) (hrun : ctx.runnable = true)
    (hfresh : ctx.GoesOnFresh ofInt d) (result : Option String) (now : String) :
    (ctx.advance ofInt d result now).Progress d (n + 1) := by
  have hstatus : ctx.status ≠ .completed := by
    intro hs
    simp [runnable, hs] at hrun
  obtain ⟨hcount, hcurrent⟩ := h.counted hstatus
  obtain ⟨findings, actionsTaken, hadvance⟩ := ctx.advance_eq ofInt d result now
  have hdistinct := h.distinct
  have hunknown := h.unknown
  rw [entered] at hdistinct hunknown
  rw [hadvance]
  cases hcur : ctx.currentNode with
  | none =>
    rw [hcur] at hdistinct hunknown
    simp only [Option.toList_none, List.append_nil, Option.bind_none, if_true] at *
    exact ⟨by simpa [entered] using hdistinct, by simpa [entered] using hunknown,
      fun hne => absurd rfl hne⟩
  | some current =>
    rw [hcur] at hdistinct hunknown
    simp only [Option.toList_some, Option.bind_some] at *
    rcases Option.eq_none_or_eq_some (ctx.nextNode ofInt d current) with hnext | ⟨x, hnext⟩
    · refine ⟨?_, ?_, fun hne => absurd (if_pos hnext) hne⟩
      · simpa [entered, hnext] using hdistinct
      · simpa [entered, hnext] using hunknown
    · obtain ⟨hnew, hknown⟩ := nextNode_fresh hfresh hcur hnext
      simp only [hnext]
      refine ⟨?_, ?_, fun _ => ⟨?_, .inr (Option.some_ne_none x)⟩⟩
      · have hentered := hdistinct.concat hnew
        rwa [List.concat_eq_append] at hentered
      · -- an unknown id is the first one
        change (_ ++ [x]).countP _ ≤ 1
        rw [List.countP_append, List.countP_singleton]
        rcases hknown with hx | hall
        · simpa [hx] using hunknown
        · have hzero : (ctx.completedNodes ++ [current]).countP (· ∉ d.ids) = 0 := by
            rw [List.countP_eq_zero]
            intro y hy
            simpa using hall y hy
          rw [hzero]
          split <;> simp
      · simp [hcount]

end ExecutionContext

/-- A store with the number of calls that have advanced an execution. -/
structure Counted (F : Type) where
  store : PlaybookDslStore F
  advances : ℕ

namespace Counted

variable (ofInt : Int → F) (id : String)

def perform (s : Counted F) (call : Call F) : Counted F where
  store := s.store.perform ofInt call
  advances := s.advances + (s.store.advances ofInt id call).toNat

/-- If the call is a step of the execution `id`, it goes on with a fresh node. -/
def FreshStep (s : Counted F) (call : Call F) : Prop :=
  call.isFor id = true → ∀ ctx ∈ s.store.getExecution id, ctx.runnable = true →
    ∀ d ∈ s.store.getDefinition ctx.playbookId, ctx.GoesOnFresh ofInt d

instance (s : Counted F) (call : Call F) : Decidable (FreshStep ofInt id s call) :=
  inferInstanceAs (Decidable (_ = true → ∀ ctx ∈ s.store.getExecution id, _))

/-- The execution `id` has made progress with each call. -/
structure OnTrack (s : Counted F) : Prop where
  notStarted : s.store.getExecution id = none → s.advances = 0
  progress : ∀ ctx d, s.store.getExecution id = some ctx →
    s.store.getDefinition ctx.playbookId = some d → ctx.Progress d s.advances

variable {ofInt id}

theorem OnTrack.perform {s : Counted F} (h : OnTrack id s) (call : Call F)
    (hfresh : FreshStep ofInt id s call) : OnTrack id (s.perform ofInt id call) := by
  rcases s.store.perform_cases ofInt id call with ⟨hsame, hnot⟩ |
    ⟨d, playbookId, analyst, initialVars, now, hnone, hnot, hstarted⟩ |
    ⟨result, now, ctx, d, hcall, hctx, hrun, hd, hok, hadvanced⟩
  · refine ⟨fun hnone => ?_, fun ctx d hctx hd => ?_⟩
    · simpa [Counted.perform, hnot] using h.notStarted (hsame.symm.trans hnone)
    · rw [Counted.perform, PlaybookDslStore.getDefinition_perform] at hd
      simpa [Counted.perform, hnot] using h.progress ctx d (hsame.symm.trans hctx) hd
  · refine ⟨fun hnone' => absurd (hstarted.symm.trans hnone') (Option.some_ne_none _), ?_⟩
    rintro ctx d' hctx -
    obtain rfl := Option.some.inj (hstarted.symm.trans hctx)
    have hzero : (s.perform ofInt id call).advances = 0 := by
      simp [Counted.perform, hnot, h.notStarted hnone]
    rw [hzero]
    refine ⟨?_, ?_, fun _ => ⟨rfl, .inl rfl⟩⟩ <;> cases d.entryNodes with
    | nil => simp [ExecutionContext.entered]
    | cons x _ =>
      simp only [ExecutionContext.entered, List.head?_cons, Option.toList_some, List.nil_append]
      first | exact List.nodup_singleton x | exact List.countP_le_length
  · subst hcall
    have hone : (s.perform ofInt id (.advance id result now)).advances = s.advances + 1 := by
      simp [Counted.perform, hok]
    obtain ⟨findings, actionsTaken, hadvance⟩ := ctx.advance_eq ofInt d result now
    refine ⟨fun hnone => absurd (hadvanced.symm.trans hnone) (Option.some_ne_none _), ?_⟩
    intro ctx' d' hctx' hd'
    obtain rfl := Option.some.inj (hadvanced.symm.trans hctx')
    rw [Counted.perform, PlaybookDslStore.getDefinition_perform, hadvance] at hd'
    obtain rfl : d = d' := Option.some.inj (hd.symm.trans hd')
    rw [hone]
    exact (h.progress ctx d hctx hd).advance hrun
      (hfresh (decide_eq_true rfl) ctx hctx hrun d hd) result now

end Counted

/-- In every run in which the conditions of an execution go on with fresh nodes: the execution
completes no node twice, and it is completed when it has been advanced once more often than there
are nodes. -/
theorem execution_finishes (ofInt : Int → F) (definitions : List (PlaybookDefinition F))
    (calls : List (Call F)) (id : String)
    (hfresh : Along (Counted.perform ofInt id) (Counted.FreshStep ofInt id)
      ⟨definitions.foldl .create .new, 0⟩ calls) :
    Throughout (Counted.perform ofInt id)
      (fun s => ∀ ctx d, s.store.getExecution id = some ctx →
        s.store.getDefinition ctx.playbookId = some d →
        ctx.completedNodes.Nodup ∧
          (d.nodes.length + 1 ≤ s.advances → ctx.status = .completed))
      ⟨definitions.foldl .create .new, 0⟩ calls := by
  refine throughout_of_invariant (I := Counted.OnTrack id)
    (fun s call h hcall => h.perform call hcall) (fun s h ctx d hctx hd => ?_) ?_ hfresh
  · exact ⟨(h.progress ctx d hctx hd).nodup, (h.progress ctx d hctx hd).completed⟩
  · have hnone := PlaybookDslStore.getExecution_foldl_create definitions id
    exact ⟨fun _ => rfl, fun ctx d hctx => absurd (hnone.symm.trans hctx) (by simp)⟩

theorem execution_finishes_triage :
    letI := noFloats
    (run (Counted.perform (fun _ => ()) "run-1") ⟨[triagePlaybook].foldl .create .new, 0⟩
      maliciousRun).advances = 3 ∧
    Throughout (Counted.perform (fun _ => ()) "run-1")
      (fun s => ∀ ctx d, s.store.getExecution "run-1" = some ctx →
        s.store.getDefinition ctx.playbookId = some d →
        ctx.completedNodes.Nodup ∧
          (d.nodes.length + 1 ≤ s.advances → ctx.status = .completed))
      ⟨[triagePlaybook].foldl .create .new, 0⟩ maliciousRun := by
  refine ⟨by decide +kernel, @execution_finishes Unit noFloats (fun _ => ()) [triagePlaybook]
    maliciousRun "run-1" ?_⟩
  decide +kernel

/-- A condition that names itself as the next node. -/
def waitingPlaybook : PlaybookDefinition Unit where
  id := "wait"
  nodes := [.condition "poll" "verdict" .eq (.string "clean") [] ["poll"]]
  entryNodes := ["poll"]
  status := .active

def waitingRun : List (Call Unit) :=
  [.start "wait" "analyst" [("verdict", .string "malicious")] "t0",
    .advance "run-1" none "t1", .advance "run-1" none "t2", .advance "run-1" none "t3"]

/-- After more steps than it has nodes the execution still runs, and has completed its only node
three times. -/
theorem execution_loops :
    letI := noFloats
    let s := run (Counted.perform (fun _ => ()) "run-1") ⟨[waitingPlaybook].foldl .create .new, 0⟩
      waitingRun
    waitingPlaybook.nodes.length + 1 ≤ s.advances ∧ ∃ ctx, s.store.getExecution "run-1" = some ctx ∧
      ctx.status = .running ∧ ctx.completedNodes = ["poll", "poll", "poll"] := by
  let := noFloats
  exact ⟨by decide +kernel, _, rfl, by decide +kernel, by decide +kernel⟩

/-! ## Variables -/

omit [F64 F] in
theorem PlaybookDefinition.assigned_snoc (d : PlaybookDefinition F) (completed : List String)
    (id name : String) : d.assigned (completed ++ [id]) name =
      (d.assignedBy name id).or (d.assigned completed name) := by
  rw [assigned, List.reverse_append, List.reverse_singleton, List.singleton_append,
    List.findSome?_cons]
  cases d.assignedBy name id <;> rfl

namespace ExecutionContext

/-- A variable has the value of its last assignment, and a condition on it is evaluated with this
value. -/
structure Assigned (ofInt : Int → F) (d : PlaybookDefinition F) (ctx : ExecutionContext F) :
    Prop where
  holds : ∀ name value, d.assigned ctx.completedNodes name = some value →
    ctx.vars.lookup name = some value
  evaluated : ∀ current id name operator expected thenBranch elseBranch value,
    ctx.currentNode = some current →
    (d.nodes.find? fun n => n.nodeId = current) =
      some (.condition id name operator expected thenBranch elseBranch) →
    d.assigned ctx.completedNodes name = some value →
    ctx.nextNode ofInt d current = (if evaluateCondition ofInt (some value) operator expected then
      thenBranch else elseBranch).head?

/-- An assignment that is completed gives its variable the value that it has. -/
def SetsKnown (d : PlaybookDefinition F) (ctx : ExecutionContext F) : Prop :=
  ∀ current ∈ ctx.currentNode, ∀ name value, d.assignedBy name current = some value →
    ctx.vars.lookup name = some value

variable {ofInt : Int → F} {ctx : ExecutionContext F} {d : PlaybookDefinition F}

theorem assigned_iff : ctx.Assigned ofInt d ↔
    ∀ name value, d.assigned ctx.completedNodes name = some value →
      ctx.vars.lookup name = some value := by
  refine ⟨Assigned.holds, fun h => ⟨h, ?_⟩⟩
  intro current id name operator expected thenBranch elseBranch value _ hnode hvalue
  rw [nextNode, PlaybookDefinition.branches, hnode]
  dsimp only
  rw [h name value hvalue]
  split_ifs <;> rfl

theorem assigned_advance (h : ctx.Assigned ofInt d) (result : Option String) (now : String) :
    (ctx.advance ofInt d result now).Assigned ofInt d ↔ ctx.SetsKnown d := by
  obtain ⟨findings, actionsTaken, hadvance⟩ := ctx.advance_eq ofInt d result now
  rw [assigned_iff, hadvance, SetsKnown]
  cases hcur : ctx.currentNode with
  | none =>
    simp only [Option.toList_none, List.append_nil]
    exact iff_of_true h.holds fun _ hmem => nomatch hmem
  | some current =>
    simp only [Option.toList_some, PlaybookDefinition.assigned_snoc]
    constructor
    · rintro hafter _ ⟨⟩ name value hvalue
      exact hafter name value (by rw [hvalue, Option.some_or])
    · intro hset name value hvalue
      rcases Option.or_eq_some_iff.mp hvalue with hnew | ⟨-, hold⟩
      · exact hset current rfl name value hnew
      · exact h.holds name value hold

end ExecutionContext

namespace PlaybookDslStore

/-- The assignments of the execution `id` hold. -/
def KeepsAssignments (ofInt : Int → F) (id : String) (store : PlaybookDslStore F) : Prop :=
  ∀ ctx d, store.getExecution id = some ctx → store.getDefinition ctx.playbookId = some d →
    ctx.Assigned ofInt d

/-- If the call is a step of the execution `id`, it sets what is known. -/
def KnownStep (id : String) (store : PlaybookDslStore F) (call : Call F) : Prop :=
  call.isFor id = true → ∀ ctx ∈ store.getExecution id, ctx.runnable = true →
    ∀ d ∈ store.getDefinition ctx.playbookId, ctx.SetsKnown d

theorem keepsAssignments_perform {ofInt : Int → F} {id : String} {store : PlaybookDslStore F}
    (h : store.KeepsAssignments ofInt id) (call : Call F) :
    (store.perform ofInt call).KeepsAssignments ofInt id ↔ store.KnownStep id call := by
  rcases store.perform_cases ofInt id call with ⟨hsame, hnot⟩ |
    ⟨d, playbookId, analyst, initialVars, now, hnone, hnot, hstarted⟩ |
    ⟨result, now, ctx, d, rfl, hctx, hrun, hd, hok, hadvanced⟩
  · refine iff_of_true (fun ctx d hctx hd => ?_) fun hfor ctx hctx hrun d hd =>
      absurd (advances_of hfor hctx hrun hd) (Bool.eq_false_iff.mp hnot)
    rw [getDefinition_perform] at hd
    exact h ctx d (hsame.symm.trans hctx) hd
  · refine iff_of_true (fun ctx d hctx _ => ?_) fun hfor ctx hctx =>
      absurd (hnone.symm.trans hctx) (Option.some_ne_none ctx).symm
    obtain rfl := Option.some.inj (hstarted.symm.trans hctx)
    exact ExecutionContext.assigned_iff.mpr fun _ _ hvalue => nomatch hvalue
  · have hiff := ExecutionContext.assigned_advance (h ctx d hctx hd) result now
    obtain ⟨findings, actionsTaken, hadvance⟩ := ctx.advance_eq ofInt d result now
    have hd' : (store.perform ofInt (.advance id result now)).getDefinition
        (ctx.advance ofInt d result now).playbookId = some d := by
      rw [getDefinition_perform, hadvance]
      exact hd
    constructor
    · rintro hkeeps - ctx' hctx' - d' hd''
      obtain rfl : ctx = ctx' := Option.some.inj (hctx.symm.trans hctx')
      obtain rfl : d = d' := Option.some.inj (hd.symm.trans hd'')
      exact hiff.mp (hkeeps _ d hadvanced hd')
    · intro hknown ctx' d' hctx' hd''
      obtain rfl := Option.some.inj (hadvanced.symm.trans hctx')
      obtain rfl : d = d' := Option.some.inj (hd'.symm.trans hd'')
      exact hiff.mpr (hknown (decide_eq_true rfl) ctx hctx hrun d hd)

/-- Over every sequence of calls: every assignment of an execution holds until the next one of its
variable, if and only if no completed assignment changes its variable. -/
theorem keepsAssignments_iff (ofInt : Int → F) (definitions : List (PlaybookDefinition F))
    (calls : List (Call F)) (id : String) :
    Throughout (perform ofInt) (KeepsAssignments ofInt id) (definitions.foldl create new) calls ↔
      Along (perform ofInt) (KnownStep id) (definitions.foldl create new) calls := by
  refine throughout_iff_along (fun store call h => (keepsAssignments_perform h call).mpr)
    (fun store h => h) (fun store call h => (keepsAssignments_perform h call).mp) ?_
  intro ctx d hctx
  exact absurd ((getExecution_foldl_create definitions id).symm.trans hctx) (by simp)

end PlaybookDslStore

def escalatingPlaybook : PlaybookDefinition Unit where
  id := "escalate"
  nodes := [.setVariable "set" "level" (.string "high"),
    .condition "check" "level" .eq (.string "high") ["page"] ["close"], .step "page", .step "close"]
  entryNodes := ["set"]
  status := .active

def escalatingRun : List (Call Unit) :=
  [.start "escalate" "analyst" [] "t0", .advance "run-1" none "t1", .advance "run-1" none "t2"]

/-- The assignment is completed, the variable has no value, and the condition on it goes on with
the other branch. -/
theorem assignment_lost :
    letI := noFloats
    let store :=
      run (PlaybookDslStore.perform fun _ => ()) (.create .new escalatingPlaybook) escalatingRun
    ∃ ctx, store.getExecution "run-1" = some ctx ∧ ctx.completedNodes = ["set", "check"] ∧
      escalatingPlaybook.assigned ctx.completedNodes "level" = some (.string "high") ∧
      ctx.vars.lookup "level" = none ∧ ctx.currentNode = some "close" ∧
      ¬ store.KeepsAssignments (fun _ => ()) "run-1" := by
  let := noFloats
  refine ⟨_, rfl, rfl, rfl, rfl, rfl, fun hkeeps => ?_⟩
  have hholds := (hkeeps _ escalatingPlaybook rfl rfl).holds "level" (.string "high") rfl
  cases hholds

end Wardex.PlaybookDsl
