import Wardex.Lib.Run
import Wardex.Lib.Visits
import Wardex.PlaybookDsl.Store

/-! Conditions of the DSL.  Only the head of the chosen branch is followed; from there on
`find_next_node` picks the first node of the definition that has not been completed, wherever
it stands.  `Clear` says when this does what the branches ask for. -/

namespace Wardex.PlaybookDsl

open Wardex.Lib Wardex.Policy

variable {F : Type}

/-- The ids of the nodes that a node names. -/
def PlaybookNode.names : PlaybookNode F → List String
  | .condition _ _ _ _ thenBranch elseBranch => thenBranch ++ elseBranch
  | .parallel _ branches => branches.flatten
  | .forEach _ _ _ body => body
  | _ => []

namespace PlaybookDefinition

/-- The node `x` occurs in the branch `other` of the condition `c` and nowhere else. -/
def OnlyIn (d : PlaybookDefinition F) (c : String) (chosen other : List String) (x : String) :
    Prop :=
  x ∈ other ∧ x ∉ chosen ∧ x ∉ d.entryNodes ∧
    ∀ node ∈ d.nodes, node.nodeId ≠ c → x ∉ node.names

/-- `x` is the first node of the definition that has not been completed. -/
def FirstOpen (d : PlaybookDefinition F) (completed : List String) (x : String) : Prop :=
  ∃ before after, d.nodes.map PlaybookNode.nodeId = before ++ x :: after ∧ x ∉ completed ∧
    ∀ y ∈ before, y ∈ completed

end PlaybookDefinition

theorem findNextNode_eq_some {d : PlaybookDefinition F} {completed : List String} {x : String} :
    findNextNode d completed = some x ↔ d.FirstOpen completed x := by
  rw [findNextNode, Option.map_eq_some_iff]
  constructor
  · rintro ⟨node, hfind, rfl⟩
    obtain ⟨hopen, before, after, hnodes, hbefore⟩ := List.find?_eq_some_iff_append.mp hfind
    refine ⟨before.map _, after.map _, by rw [hnodes, List.map_append, List.map_cons],
      of_decide_eq_true hopen, fun y hy => ?_⟩
    obtain ⟨n, hn, rfl⟩ := List.mem_map.mp hy
    simpa using hbefore n hn
  · rintro ⟨before, after, hnodes, hx, hbefore⟩
    obtain ⟨b, rest, hsplit, rfl, hrest⟩ := List.map_eq_append_iff.mp hnodes
    obtain ⟨node, a, rfl, rfl, rfl⟩ := List.map_eq_cons_iff.mp hrest
    refine ⟨node, List.find?_eq_some_iff_append.mpr ⟨by simpa using hx, b, a, hsplit, ?_⟩, rfl⟩
    intro n hn
    simpa using hbefore _ (List.mem_map_of_mem hn)

theorem findNextNode_eq_none {d : PlaybookDefinition F} {completed : List String} :
    findNextNode d completed = none ↔
      ∀ x ∈ d.nodes.map PlaybookNode.nodeId, x ∈ completed := by
  simp [findNextNode]

variable [F64 F] (ofInt : Int → F)

namespace PlaybookDefinition

/-- The chosen branch and the other one, if the node is a condition. -/
def branches (d : PlaybookDefinition F) (vars : List (String × Value F)) (current : String) :
    Option (List String × List String) :=
  match d.nodes.find? fun n => n.nodeId = current with
  | some (.condition _ variableName operator value thenBranch elseBranch) =>
    if evaluateCondition ofInt (vars.lookup variableName) operator value then
      some (thenBranch, elseBranch)
    else some (elseBranch, thenBranch)
  | _ => none

/-- The condition `c` has been completed, with `post` completed after it. -/
def Decided (d : PlaybookDefinition F) (vars : List (String × Value F)) (completed : List String)
    (c : String) (chosen other post : List String) : Prop :=
  d.branches ofInt vars c = some (chosen, other) ∧ ∃ pre, completed = pre ++ c :: post

/-- Going on with `x` overtakes no node of a chosen branch and enters no branch not chosen. -/
def Follows (d : PlaybookDefinition F) (vars : List (String × Value F)) (completed : List String)
    (x : String) : Prop :=
  ∀ c chosen other post, d.Decided ofInt vars completed c chosen other post →
    (x ∈ chosen → ∀ y ∈ chosen.takeWhile (· ≠ x), y ∈ post) ∧ ¬ d.OnlyIn c chosen other x

/-- Every chosen branch has been executed since its condition. -/
def AllDone (d : PlaybookDefinition F) (vars : List (String × Value F)) (completed : List String) :
    Prop :=
  ∀ c chosen other post, d.Decided ofInt vars completed c chosen other post →
    ∀ x ∈ chosen, x ∈ post

/-- Going on with the next node, or ending when there is none. -/
def GoesOn (d : PlaybookDefinition F) (vars : List (String × Value F)) (completed : List String) :
    Option String → Prop
  | some x => d.Follows ofInt vars completed x
  | none => d.AllDone ofInt vars completed

end PlaybookDefinition

namespace ExecutionContext

/-- What the branches of the completed conditions ask of an execution. -/
def Exclusive (d : PlaybookDefinition F) (ctx : ExecutionContext F) : Prop :=
  ∀ c chosen other post, d.Decided ofInt ctx.vars ctx.completedNodes c chosen other post →
    InOrder chosen (post ++ ctx.currentNode.toList) ∧
    (ctx.status = .completed → ∀ x ∈ chosen, x ∈ post) ∧
    ∀ x, d.OnlyIn c chosen other x → x ∉ ctx.completedNodes ∧ ctx.currentNode ≠ some x

/-- The condition on the step from `ctx`. -/
def Clear (d : PlaybookDefinition F) (ctx : ExecutionContext F) : Prop :=
  match ctx.currentNode with
  | none => d.AllDone ofInt ctx.vars ctx.completedNodes
  | some current =>
    let done := ctx.completedNodes ++ [current]
    match d.branches ofInt ctx.vars current with
    | some (chosen, other) =>
      -- the branch not chosen has not been entered before, and the chosen one's head is in turn
      (∀ x, d.OnlyIn current chosen other x → x ∉ done) ∧
        d.GoesOn ofInt ctx.vars done chosen.head?
    | none =>
      -- the first node that is not completed, wherever it stands in the definition
      (∀ x, d.FirstOpen done x → d.Follows ofInt ctx.vars done x) ∧
        ((∀ x ∈ d.nodes.map PlaybookNode.nodeId, x ∈ done) → d.AllDone ofInt ctx.vars done)

end ExecutionContext

namespace ExecutionContext

section

variable (ctx : ExecutionContext F) (d : PlaybookDefinition F) (result : Option String)
    (now : String)

/-- Where an execution goes when it completes `current`. -/
def nextNode (current : String) : Option String :=
  match d.branches ofInt ctx.vars current with
  | some (chosen, _) => chosen.head?
  | none => findNextNode d (ctx.completedNodes ++ [current])

theorem completeCurrent_eq : ∃ findings actionsTaken,
    ctx.completeCurrent ofInt d result now =
      { ctx with
        completedNodes := ctx.completedNodes ++ ctx.currentNode.toList
        currentNode := ctx.currentNode.bind (nextNode ofInt ctx d)
        findings := findings
        actionsTaken := actionsTaken } := by
  unfold completeCurrent
  cases hcur : ctx.currentNode with
  | none => exact ⟨ctx.findings, ctx.actionsTaken, by cases ctx; cases hcur; simp⟩
  | some current =>
    simp only [Option.toList_some, Option.bind_some, nextNode, PlaybookDefinition.branches]
    cases hnode : d.nodes.find? fun n => n.nodeId = current with
    | none => exact ⟨_, _, rfl⟩
    | some node =>
      cases node with
      | condition id name operator value thenBranch elseBranch =>
        refine ⟨ctx.findings, ctx.actionsTaken, ?_⟩
        dsimp only
        split_ifs <;> rfl
      | action => exact ⟨_, _, rfl⟩
      | step => exact ⟨_, _, rfl⟩
      | parallel => exact ⟨_, _, rfl⟩
      | forEach => exact ⟨_, _, rfl⟩
      | setVariable => exact ⟨_, _, rfl⟩

/-- All that `advance` does, but for the findings and the actions that it records. -/
theorem advance_eq : ∃ findings actionsTaken, ctx.advance ofInt d result now =
    { ctx with
      completedNodes := ctx.completedNodes ++ ctx.currentNode.toList
      currentNode := ctx.currentNode.bind (nextNode ofInt ctx d)
      status := if ctx.currentNode.bind (nextNode ofInt ctx d) = none then .completed
        else ctx.status
      findings := findings
      actionsTaken := actionsTaken } := by
  obtain ⟨findings, actionsTaken, hmoved⟩ := ctx.completeCurrent_eq ofInt d result now
  refine ⟨findings, actionsTaken, ?_⟩
  rw [advance, hmoved]
  dsimp only
  split_ifs <;> rfl

end

variable {ofInt} {ctx : ExecutionContext F} {d : PlaybookDefinition F}

/-- Completing one more node: the conditions decided before, and perhaps the node itself. -/
theorem decided_snoc {vars : List (String × Value F)} {completed : List String}
    {x c : String} {chosen other post : List String} :
    d.Decided ofInt vars (completed ++ [x]) c chosen other post ↔
      (∃ post', post = post' ++ [x] ∧ d.Decided ofInt vars completed c chosen other post') ∨
        (post = [] ∧ c = x ∧ d.branches ofInt vars x = some (chosen, other)) := by
  simp only [PlaybookDefinition.Decided, snoc_eq_append_cons]
  constructor
  · rintro ⟨hb, pre, ⟨post', rfl, hc⟩ | ⟨rfl, rfl, _⟩⟩
    · exact Or.inl ⟨post', rfl, hb, pre, hc⟩
    · exact Or.inr ⟨rfl, rfl, hb⟩
  · rintro (⟨post', rfl, hb, pre, hc⟩ | ⟨rfl, rfl, hb⟩)
    · exact ⟨hb, pre, Or.inl ⟨post', rfl, hc⟩⟩
    · exact ⟨hb, completed, Or.inr ⟨rfl, rfl, rfl⟩⟩

/-- What the branches kept so far say once one more node is completed. -/
theorem Exclusive.of_snoc {current c : String} {chosen other post : List String}
    (h : ctx.Exclusive ofInt d) (hcur : ctx.currentNode = some current)
    (hdec : d.Decided ofInt ctx.vars (ctx.completedNodes ++ [current]) c chosen other post) :
    InOrder chosen post ∧ (c = current ∧ post = [] ∨
      ∀ x, d.OnlyIn c chosen other x → x ∉ ctx.completedNodes ++ [current]) := by
  rcases decided_snoc.mp hdec with ⟨post', rfl, hdec'⟩ | ⟨rfl, rfl, _⟩
  · obtain ⟨horder, _, honly⟩ := h c chosen other post' hdec'
    rw [hcur, Option.toList_some] at horder
    refine ⟨horder, Or.inr fun x hx hmem => ?_⟩
    obtain ⟨hx₁, hx₂⟩ := honly x hx
    rcases List.mem_append.mp hmem with hm | hm
    · exact hx₁ hm
    · exact hx₂ (by rw [hcur, List.mem_singleton.mp hm])
  · exact ⟨inOrder_nil _, Or.inl ⟨rfl, rfl⟩⟩

/-- The branches are kept after one more node exactly if the node entered no branch behind its
condition's back and what comes next is in turn. -/
theorem exclusive_snoc {current : String} {next : Option String} {status : ExecutionStatus}
    {findings : List String} {actionsTaken : List (ActionRecord F)}
    (h : ctx.Exclusive ofInt d) (hcur : ctx.currentNode = some current)
    (hrun : ctx.status ≠ .completed)
    (hstatus : status = if next = none then .completed else ctx.status) :
    Exclusive ofInt d { ctx with
        completedNodes := ctx.completedNodes ++ [current]
        currentNode := next
        status := status
        findings := findings
        actionsTaken := actionsTaken } ↔
      (∀ chosen other, d.branches ofInt ctx.vars current = some (chosen, other) →
        ∀ x, d.OnlyIn current chosen other x → x ∉ ctx.completedNodes ++ [current]) ∧
      d.GoesOn ofInt ctx.vars (ctx.completedNodes ++ [current]) next := by
  have hdecided : status = .completed ↔ next = none := by
    rw [hstatus]
    split_ifs with hnext <;> simp [hnext, hrun]
  constructor
  · intro hexcl
    refine ⟨fun chosen other hb x hx => ?_, ?_⟩
    · exact ((hexcl current chosen other [] (decided_snoc.mpr (Or.inr ⟨rfl, rfl, hb⟩))).2.2 x hx).1
    · cases next with
      | some x =>
        intro c chosen other post hdec
        obtain ⟨horder, _, honly⟩ := hexcl c chosen other post hdec
        exact ⟨(inOrder_snoc.mp horder).2, fun hx => (honly x hx).2 rfl⟩
      | none => exact fun c chosen other post hdec =>
          (hexcl c chosen other post hdec).2.1 (hdecided.mpr rfl)
  · rintro ⟨hnew, hnext⟩ c chosen other post hdec
    obtain ⟨horder, hentered⟩ := h.of_snoc hcur hdec
    have hout : ∀ x, d.OnlyIn c chosen other x → x ∉ ctx.completedNodes ++ [current] := by
      rcases hentered with ⟨rfl, _⟩ | hout
      · exact hnew chosen other hdec.1
      · exact hout
    cases next with
    | some x =>
      obtain ⟨hturn, honly⟩ := hnext c chosen other post hdec
      refine ⟨inOrder_snoc.mpr ⟨horder, hturn⟩, fun hs => ?_, fun y hy => ⟨hout y hy, ?_⟩⟩
      · cases hdecided.mp hs
      · rintro hxy
        exact honly (Option.some.inj hxy ▸ hy)
    | none =>
      refine ⟨?_, fun _ => hnext c chosen other post hdec, fun y hy => ⟨hout y hy, ?_⟩⟩
      · rw [Option.toList_none, List.append_nil]
        exact horder
      · exact fun h => nomatch h

/-- One step keeps the branches exactly if it is clear. -/
theorem exclusive_advance_iff (h : ctx.Exclusive ofInt d) (hrun : ctx.runnable = true)
    (result : Option String) (now : String) :
    (ctx.advance ofInt d result now).Exclusive ofInt d ↔ ctx.Clear ofInt d := by
  have hstatus : ctx.status ≠ .completed := by
    intro hs
    simp [runnable, hs] at hrun
  obtain ⟨findings, actionsTaken, hadvance⟩ := ctx.advance_eq ofInt d result now
  rw [hadvance, Clear]
  cases hcur : ctx.currentNode with
  | none =>
    simp only [Option.toList_none, List.append_nil, Option.bind_none, if_true]
    refine ⟨fun hexcl c chosen other post hdec => (hexcl c chosen other post hdec).2.1 rfl,
      fun hdone c chosen other post hdec => ?_⟩
    obtain ⟨horder, _, honly⟩ := h c chosen other post hdec
    rw [hcur] at horder
    exact ⟨horder, fun _ => hdone c chosen other post hdec,
      fun x hx => ⟨(honly x hx).1, fun h => nomatch h⟩⟩
  | some current =>
    simp only [Option.toList_some, Option.bind_some]
    rw [exclusive_snoc h hcur hstatus rfl, nextNode]
    cases hb : d.branches ofInt ctx.vars current with
    | some p =>
      obtain ⟨chosen, other⟩ := p
      refine and_congr ⟨fun hall => hall chosen other rfl, fun hone a b hab => ?_⟩ Iff.rfl
      cases hab
      exact hone
    | none =>
      refine ⟨fun ⟨_, hnext⟩ => ⟨fun x hx => ?_, fun hall => ?_⟩, fun ⟨hopen, hall⟩ =>
        ⟨fun _ _ hab => (nomatch hab), ?_⟩⟩
      · rw [findNextNode_eq_some.mpr hx] at hnext
        exact hnext
      · rw [findNextNode_eq_none.mpr hall] at hnext
        exact hnext
      · cases hnext : findNextNode d (ctx.completedNodes ++ [current]) with
        | some x => exact hopen x (findNextNode_eq_some.mp hnext)
        | none => exact hall (findNextNode_eq_none.mp hnext)

end ExecutionContext

inductive Call (F : Type) where
  | start (playbookId analyst : String) (initialVars : List (String × Value F)) (now : String)
  | advance (runId : String) (result : Option String) (now : String)

/-- The call is a step of the execution `id`. -/
def Call.isFor (id : String) : Call F → Bool
  | .start .. => false
  | .advance runId _ _ => runId = id

namespace PlaybookDslStore

section

variable (ofInt : Int → F)

def perform (store : PlaybookDslStore F) : Call F → PlaybookDslStore F
  | .start playbookId analyst initialVars now =>
    (store.startExecution playbookId analyst initialVars now).1
  | .advance runId result now => (store.advanceExecution ofInt runId result now).1

/-- The call advances the execution `id` and returns `Ok`. -/
def advances (store : PlaybookDslStore F) (id : String) : Call F → Bool
  | .advance runId result now =>
    runId = id && (store.advanceExecution ofInt runId result now).2.isOk
  | _ => false

/-- The branches of the playbook of the execution `id` are kept. -/
def KeepsBranches (id : String) (store : PlaybookDslStore F) : Prop :=
  ∀ ctx d, store.getExecution id = some ctx → store.getDefinition ctx.playbookId = some d →
    ctx.Exclusive ofInt d

/-- If the call is a step of the execution `id`, the step is clear. -/
def ClearStep (id : String) (store : PlaybookDslStore F) (call : Call F) : Prop :=
  ∀ result now, call = .advance id result now → ∀ ctx d, store.getExecution id = some ctx →
    ctx.runnable = true → store.getDefinition ctx.playbookId = some d → ctx.Clear ofInt d

end

variable {ofInt : Int → F} {store : PlaybookDslStore F} {id : String}

omit [F64 F] in
theorem getExecution_runId {ctx : ExecutionContext F} (h : store.getExecution id = some ctx) :
    ctx.runId = id := by
  simpa using List.find?_some h

/-- The step of an execution takes it to `advance`. -/
theorem getExecution_advance {ctx : ExecutionContext F} {d : PlaybookDefinition F}
    (hctx : store.getExecution id = some ctx) (hrun : ctx.runnable = true)
    (hd : store.getDefinition ctx.playbookId = some d) (result : Option String) (now : String) :
    (store.advanceExecution ofInt id result now).1.getExecution id =
      some (ctx.advance ofInt d result now) := by
  obtain ⟨findings, actionsTaken, hadvance⟩ := ctx.advance_eq ofInt d result now
  have hrunId := getExecution_runId hctx
  have hid : (ctx.advance ofInt d result now).runId = id := by rwa [hadvance]
  simp only [advanceExecution, hctx, if_pos hrun, hd]
  have hkeep : ∀ e : ExecutionContext F, decide (e.runId = id) = true →
      decide ((ctx.advance ofInt d result now).runId = id) = true := fun _ _ => decide_eq_true hid
  exact (find?_updateFirst hkeep).trans (congrArg _ hctx)

theorem getDefinition_perform (call : Call F) (playbookId : String) :
    (store.perform ofInt call).getDefinition playbookId = store.getDefinition playbookId := by
  cases call with
  | start => simp only [perform, startExecution]; split <;> rfl
  | advance =>
    simp only [perform, advanceExecution]
    split
    · rfl
    · split_ifs
      · split <;> rfl
      · rfl

/-- A step of another execution. -/
theorem getExecution_advance_other {other : String} (hne : id ≠ other) (result : Option String)
    (now : String) : (store.advanceExecution ofInt other result now).1.getExecution id =
      store.getExecution id := by
  rw [advanceExecution]
  split
  · rfl
  · next ctx hctx =>
    split_ifs
    · split
      · rfl
      · next d hd =>
        obtain ⟨findings, actionsTaken, hadvance⟩ := ctx.advance_eq ofInt d result now
        apply find?_updateFirst_other
        intro e he
        have hid : e.runId = other := of_decide_eq_true he
        rw [hadvance]
        exact ⟨by simp [hid, Ne.symm hne], by simp [getExecution_runId hctx, Ne.symm hne]⟩
    · rfl

/-- A call with nothing to advance. -/
theorem advanceExecution_refused (h : ¬∃ ctx d, store.getExecution id = some ctx ∧
    ctx.runnable = true ∧ store.getDefinition ctx.playbookId = some d) (result : Option String)
    (now : String) : (store.advanceExecution ofInt id result now).1 = store := by
  rw [advanceExecution]
  split
  · rfl
  · next ctx hctx =>
    split_ifs with hrun
    · split
      · rfl
      · next d hd => exact absurd ⟨ctx, d, hctx, hrun, hd⟩ h
    · rfl

theorem advances_of {call : Call F} {ctx : ExecutionContext F} {d : PlaybookDefinition F}
    (hfor : call.isFor id = true) (hctx : store.getExecution id = some ctx)
    (hrun : ctx.runnable = true) (hd : store.getDefinition ctx.playbookId = some d) :
    store.advances ofInt id call = true := by
  cases call with
  | start => cases hfor
  | advance runId result now =>
    obtain rfl : runId = id := of_decide_eq_true hfor
    simp [advances, advanceExecution, hctx, hrun, hd, Except.isOk, Except.toBool]

/-- What a call does to the execution `id`. -/
theorem perform_cases (ofInt : Int → F) (store : PlaybookDslStore F) (id : String) (call : Call F) :
    ((store.perform ofInt call).getExecution id = store.getExecution id ∧
      store.advances ofInt id call = false) ∨
    (∃ d : PlaybookDefinition F, ∃ playbookId analyst initialVars now,
      store.getExecution id = none ∧ store.advances ofInt id call = false ∧
      (store.perform ofInt call).getExecution id = some
        { playbookId := playbookId, runId := id, analyst := analyst, vars := initialVars,
          completedNodes := [], currentNode := d.entryNodes.head?, status := .running,
          startedAt := now, findings := [], actionsTaken := [] }) ∨
    ∃ result now ctx d, call = .advance id result now ∧ store.getExecution id = some ctx ∧
      ctx.runnable = true ∧ store.getDefinition ctx.playbookId = some d ∧
      store.advances ofInt id call = true ∧
      (store.perform ofInt call).getExecution id = some (ctx.advance ofInt d result now) := by
  cases call with
  | start playbookId analyst initialVars now =>
    simp only [perform, startExecution]
    split
    · exact .inl ⟨rfl, rfl⟩
    · next d _ =>
      by_cases hold : store.getExecution id = none
      · by_cases hid : runId store.nextRunId = id
        · refine .inr (.inl ⟨d, playbookId, analyst, initialVars, now, hold, rfl, ?_⟩)
          rw [getExecution] at hold
          simp only [getExecution, List.find?_append, hold, Option.none_or]
          rw [List.find?_singleton, if_pos (by simpa using hid), hid]
        · refine .inl ⟨?_, rfl⟩
          rw [getExecution] at hold
          simp only [getExecution, List.find?_append, hold, Option.none_or]
          rw [List.find?_singleton, if_neg (by simpa using hid)]
      · obtain ⟨ctx, hctx⟩ := Option.ne_none_iff_exists'.mp hold
        refine .inl ⟨?_, rfl⟩
        rw [getExecution] at hctx
        simp only [getExecution, List.find?_append, hctx, Option.some_or]
  | advance runId result now =>
    by_cases hid : id = runId
    · subst hid
      by_cases hstep : ∃ ctx d, store.getExecution id = some ctx ∧ ctx.runnable = true ∧
          store.getDefinition ctx.playbookId = some d
      · obtain ⟨ctx, d, hctx, hrun, hd⟩ := hstep
        refine .inr (.inr ⟨result, now, ctx, d, rfl, hctx, hrun, hd, ?_,
          getExecution_advance hctx hrun hd result now⟩)
        simp [advances, advanceExecution, hctx, hrun, hd, Except.isOk, Except.toBool]
      · refine .inl ⟨congrArg (getExecution · id) (advanceExecution_refused hstep result now), ?_⟩
        rw [advances, advanceExecution]
        split
        · simp [Except.isOk, Except.toBool]
        · next ctx hctx =>
          split_ifs with hrun
          · split
            · simp [Except.isOk, Except.toBool]
            · next d hd => exact absurd ⟨ctx, d, hctx, hrun, hd⟩ hstep
          · simp [Except.isOk, Except.toBool]
    · exact .inl ⟨getExecution_advance_other hid result now, by
        simp [advances, Ne.symm hid]⟩

theorem keepsBranches_advance_iff {ctx : ExecutionContext F} {d : PlaybookDefinition F}
    (h : store.KeepsBranches ofInt id) (hctx : store.getExecution id = some ctx)
    (hrun : ctx.runnable = true) (hd : store.getDefinition ctx.playbookId = some d)
    (result : Option String) (now : String) :
    (store.perform ofInt (.advance id result now)).KeepsBranches ofInt id ↔
      store.ClearStep ofInt id (.advance id result now) := by
  have hiff := ExecutionContext.exclusive_advance_iff (h ctx d hctx hd) hrun result now
  have hnow : (store.advanceExecution ofInt id result now).1.getExecution id = _ :=
    getExecution_advance hctx hrun hd result now
  have hd' : (store.advanceExecution ofInt id result now).1.getDefinition
      (ctx.advance ofInt d result now).playbookId = some d := by
    obtain ⟨findings, actionsTaken, hadvance⟩ := ctx.advance_eq ofInt d result now
    rw [hadvance]
    exact (getDefinition_perform (.advance id result now) _).trans hd
  constructor
  · intro hkeep result' now' hcall ctx₁ d₁ hctx₁ _ hd₁
    obtain rfl : ctx = ctx₁ := Option.some.inj (hctx.symm.trans hctx₁)
    obtain rfl : d = d₁ := Option.some.inj (hd.symm.trans hd₁)
    exact hiff.mp (hkeep _ d hnow hd')
  · intro hclear ctx₁ d₁ hctx₁ hd₁
    obtain rfl := Option.some.inj (hnow.symm.trans hctx₁)
    obtain rfl : d = d₁ := Option.some.inj (hd'.symm.trans hd₁)
    exact hiff.mpr (hclear result now rfl ctx d hctx hrun hd)

theorem keepsBranches_perform (call : Call F) (h : store.KeepsBranches ofInt id) :
    (store.perform ofInt call).KeepsBranches ofInt id ↔ store.ClearStep ofInt id call := by
  rcases store.perform_cases ofInt id call with ⟨hsame, hnot⟩ |
    ⟨d, playbookId, analyst, initialVars, now, hnone, -, hstarted⟩ |
    ⟨result, now, ctx, d, rfl, hctx, hrun, hd, -, -⟩
  · refine iff_of_true (fun ctx d hctx hd => ?_) fun result now hcall ctx d hctx hrun hd => ?_
    · rw [getDefinition_perform] at hd
      exact h ctx d (hsame.symm.trans hctx) hd
    · have hfor : call.isFor id = true := hcall ▸ decide_eq_true rfl
      exact absurd (advances_of hfor hctx hrun hd) (Bool.eq_false_iff.mp hnot)
  · refine iff_of_true (fun ctx d hctx _ => ?_) fun _ _ _ ctx _ hctx =>
      absurd (hnone.symm.trans hctx) (Option.some_ne_none ctx).symm
    -- nothing has been completed yet
    obtain rfl := Option.some.inj (hstarted.symm.trans hctx)
    rintro c chosen other post ⟨_, pre, hpre⟩
    simp at hpre
  · exact keepsBranches_advance_iff h hctx hrun hd result now

omit [F64 F] in
theorem getExecution_foldl_create (definitions : List (PlaybookDefinition F)) (id : String) :
    (definitions.foldl create new).getExecution id = none := by
  have hempty : ∀ (l : List (PlaybookDefinition F)) (store : PlaybookDslStore F),
      store.executions = [] → (l.foldl create store).executions = [] := by
    intro l
    induction l with
    | nil => exact fun _ h => h
    | cons d l ih => exact fun store h => ih (store.create d) h
  rw [getExecution, hempty definitions new rfl]
  rfl

/-- Over every sequence of calls: the branches of an execution are kept in every state if and
only if each of its steps is clear. -/
theorem keepsBranches_iff_clear (definitions : List (PlaybookDefinition F))
    (calls : List (Call F)) (id : String) :
    Throughout (perform ofInt) (KeepsBranches ofInt id) (definitions.foldl create new) calls ↔
      Along (perform ofInt) (ClearStep ofInt id) (definitions.foldl create new) calls := by
  have hstart : KeepsBranches ofInt id (definitions.foldl create (new (F := F))) :=
    fun ctx d hctx => absurd ((getExecution_foldl_create definitions id).symm.trans hctx)
      (Option.some_ne_none ctx).symm
  exact throughout_iff_along (fun store call h hc => (keepsBranches_perform call h).mpr hc)
    (fun store h => h) (fun store call h hq => (keepsBranches_perform call h).mp hq) hstart

end PlaybookDslStore

def triagePlaybook : PlaybookDefinition Unit where
  id := "triage"
  nodes := [.step "check", .condition "confirmed" "verdict" .eq (.string "malicious") ["contain"]
    ["close"], .step "contain", .step "close"]
  entryNodes := ["check"]
  status := .active

def maliciousRun : List (Call Unit) :=
  [.start "triage" "analyst" [("verdict", .string "malicious")] "t0",
    .advance "run-1" none "t1", .advance "run-1" none "t2", .advance "run-1" none "t3"]

/-- The verdict is malicious; the host is contained and then the case is closed as well. -/
theorem untaken_node_entered :
    letI := noFloats
    let store :=
      run (PlaybookDslStore.perform fun _ => ()) (.create .new triagePlaybook) maliciousRun
    (triagePlaybook.nodes.map PlaybookNode.nodeId).Nodup ∧
      triagePlaybook.OnlyIn "confirmed" ["contain"] ["close"] "close" ∧
      ∃ ctx, store.getExecution "run-1" = some ctx ∧ ctx.completedNodes = ["check", "confirmed",
        "contain"] ∧ ctx.currentNode = some "close" ∧
        triagePlaybook.branches (fun _ => ()) ctx.vars "confirmed" = some (["contain"], ["close"]) ∧
        ¬ ctx.Exclusive (fun _ => ()) triagePlaybook := by
  let := noFloats
  have honly : triagePlaybook.OnlyIn "confirmed" ["contain"] ["close"] "close" := by
    refine ⟨by decide, by decide, by decide, fun node hnode hid => ?_⟩
    simp only [triagePlaybook, List.mem_cons, List.not_mem_nil, or_false] at hnode
    rcases hnode with rfl | rfl | rfl | rfl
    · exact List.not_mem_nil
    · exact absurd rfl hid
    · exact List.not_mem_nil
    · exact List.not_mem_nil
  refine ⟨by decide, honly, _, rfl, rfl, rfl, rfl, fun hexcl => ?_⟩
  exact ((hexcl "confirmed" ["contain"] ["close"] ["contain"] ⟨rfl, ["check"], rfl⟩).2.2 "close"
    honly).2 rfl

end Wardex.PlaybookDsl
