import Mathlib.Data.List.Nodup
import Wardex.Lib.Decimal
import Wardex.Lib.Run
import Wardex.LiveResponse.Engine

/-! What the engine keeps under control over all its calls: which commands were accepted, that a
denial and the end of a session are final, and that the ids of the commands are unique. -/

namespace Wardex.LiveResponse

open Wardex.Lib

/-- The list has an entry for the command that permits all of the arguments. -/
def Permits (allowed : List AllowedCommand) (command : String) (args : List String) : Prop :=
  ∃ entry ∈ allowed, entry.name = command ∧
    (entry.allowedArgs = [] ∨ ∀ arg ∈ args, arg ∈ entry.allowedArgs)

namespace LiveResponseEngine

/-- The call submits the command to the session, which is active and not idle for too long, the
allow-list in force permits it, and the call returns the id of the record. -/
def Accepts (engine : LiveResponseEngine) (call : Call) (sessionId : String)
    (record : CommandRecord) : Prop :=
  ∃ session nowMs, call = .submitCommand sessionId record.command record.args nowMs ∧
    engine.getSession sessionId = some session ∧ session.status = .active ∧
    session.elapsedSecs nowMs ≤ session.timeoutSecs ∧
    Permits (engine.allowedFor session.platform) record.command record.args ∧
    (engine.submitCommand sessionId record.command record.args nowMs).2 = .ok record.commandId

/-- All commands of all sessions. -/
def auditLog (engine : LiveResponseEngine) : List (String × CommandRecord) :=
  engine.sessions.flatMap fun s => s.commands.map fun c => (s.sessionId, c)

/-- The call does not take a denied command out of its status, nor a session back to `active`. -/
def Proper (engine : LiveResponseEngine) : Call → Prop
  | .completeCommand sessionId commandId status _ _ _ => status ≠ .denied →
      ∀ s, engine.getSession sessionId = some s →
        ∀ c, s.commands.find? (fun c => c.commandId = commandId) = some c → c.status ≠ .denied
  | .closeSession sessionId reason => reason = .active →
      ∀ s, engine.getSession sessionId = some s → s.status = .active
  | _ => True

end LiveResponseEngine

/-- What may become of a command: it stays denied. -/
structure CommandRecord.Follows (c c' : CommandRecord) : Prop where
  commandId : c'.commandId = c.commandId
  denied : c.status = .denied → c'.status = .denied

/-- What may become of a session: once it is not active it stays so and gains no command. -/
structure LiveResponseSession.Follows (s s' : LiveResponseSession) : Prop where
  sessionId : s'.sessionId = s.sessionId
  left : s.status ≠ .active → s'.status ≠ .active ∧ s'.commands.length = s.commands.length
  commands : Evolves CommandRecord.Follows s.commands s'.commands

/-- The engine after the calls. -/
def after (timeoutSecs : Nat) (calls : List Call) : LiveResponseEngine :=
  run LiveResponseEngine.perform (.new timeoutSecs) calls

/-- The sessions are controlled at every moment of the run. -/
structure Controlled (timeoutSecs : Nat) (calls : List Call) : Prop where
  accepted : ∀ as bs, calls = as ++ bs → ∀ s ∈ (after timeoutSecs as).sessions,
    ∀ c ∈ s.commands, c.status ≠ .denied →
      ∃ before call rest, as = before ++ call :: rest ∧
        (after timeoutSecs before).Accepts call s.sessionId c
  follows : ∀ as bs cs, calls = as ++ bs ++ cs →
    Evolves LiveResponseSession.Follows (after timeoutSecs as).sessions
      (after timeoutSecs (as ++ bs)).sessions
  unique : ∀ as bs, calls = as ++ bs →
    ((after timeoutSecs as).auditLog.map fun entry => entry.2.commandId).Nodup

variable {engine : LiveResponseEngine} {call : Call}

/-! ### Denials and ended sessions -/

theorem CommandRecord.Follows.refl (c : CommandRecord) : c.Follows c := ⟨rfl, id⟩

theorem CommandRecord.Follows.trans (a b c : CommandRecord) (h : a.Follows b) (h' : b.Follows c) :
    a.Follows c :=
  ⟨h'.commandId.trans h.commandId, fun hd => h'.denied (h.denied hd)⟩

theorem LiveResponseSession.follows_of_commands_eq {s s' : LiveResponseSession}
    (hid : s'.sessionId = s.sessionId) (hstatus : s.status ≠ .active → s'.status ≠ .active)
    (hcommands : s'.commands = s.commands) : s.Follows s' where
  sessionId := hid
  left h := ⟨hstatus h, congrArg List.length hcommands⟩
  commands := by
    rw [hcommands]
    exact Evolves.refl CommandRecord.Follows.refl s.commands

theorem LiveResponseSession.Follows.refl (s : LiveResponseSession) : s.Follows s :=
  follows_of_commands_eq rfl id rfl

theorem LiveResponseSession.Follows.trans (a b c : LiveResponseSession) (h : a.Follows b)
    (h' : b.Follows c) : a.Follows c where
  sessionId := h'.sessionId.trans h.sessionId
  left hleft := by
    obtain ⟨hb, hlength⟩ := h.left hleft
    obtain ⟨hc, hlength'⟩ := h'.left hb
    exact ⟨hc, hlength'.trans hlength⟩
  commands := h.commands.trans CommandRecord.Follows.trans h'.commands

namespace LiveResponseEngine

theorem evolves_modifySession {sessionId : String}
    {f : LiveResponseSession → LiveResponseSession}
    (hf : ∀ s, engine.getSession sessionId = some s → s.Follows (f s)) :
    Evolves LiveResponseSession.Follows engine.sessions
      (engine.modifySession sessionId f).sessions :=
  evolves_updateFirst LiveResponseSession.Follows.refl hf

/-- What a submission can do: nothing, mark an active session as timed out, or record a command in
an active session, which is denied or else accepted by this call. -/
inductive Submitted (engine : LiveResponseEngine) (sessionId command : String)
    (args : List String) (nowMs : Nat) : LiveResponseEngine → Prop
  | refused : Submitted engine sessionId command args nowMs engine
  | timedOut (session : LiveResponseSession) (hget : engine.getSession sessionId = some session)
      (hactive : session.status = .active) :
      Submitted engine sessionId command args nowMs
        (engine.modifySession sessionId fun s => { s with status := .timedOut })
  | recorded (session : LiveResponseSession) (hget : engine.getSession sessionId = some session)
      (hactive : session.status = .active) (record : CommandRecord) (lastActivity : Nat)
      (hid : record.commandId = engine.nextCommandId)
      (haccepted : record.status ≠ .denied →
        engine.Accepts (.submitCommand sessionId command args nowMs) sessionId record) :
      Submitted engine sessionId command args nowMs
        (engine.recordCommand sessionId record lastActivity)

theorem submitted (engine : LiveResponseEngine) (sessionId command : String)
    (args : List String) (nowMs : Nat) :
    Submitted engine sessionId command args nowMs
      (engine.submitCommand sessionId command args nowMs).1 := by
  cases hget : engine.getSession sessionId with
  | none =>
    rw [submitCommand, hget]
    exact .refused
  | some session =>
    by_cases hactive : session.status = .active
    swap
    · simp only [submitCommand, hget, hactive, ne_eq, not_false_eq_true, if_true]
      exact .refused
    by_cases hidle : session.timeoutSecs < session.elapsedSecs nowMs
    · simp only [submitCommand, hget, hactive, hidle, ne_eq, not_true_eq_false, if_false, if_true]
      exact .timedOut session hget hactive
    cases hfind : (engine.allowedFor session.platform).find? fun a => a.name = command with
    | none =>
      simp only [submitCommand, hget, hactive, hidle, hfind, ne_eq, not_true_eq_false, if_false]
      exact .recorded session hget hactive _ _ rfl fun h => absurd rfl h
    | some entry =>
      cases hbad : (if entry.allowedArgs.isEmpty then none
          else args.find? fun arg => arg ∉ entry.allowedArgs) with
      | some arg =>
        simp only [submitCommand, hget, hactive, hidle, hfind, hbad, ne_eq, not_true_eq_false,
          if_false]
        exact .recorded session hget hactive _ _ rfl fun h => absurd rfl h
      | none =>
        have hname : entry.name = command := by simpa using List.find?_some hfind
        have hargs : entry.allowedArgs = [] ∨ ∀ arg ∈ args, arg ∈ entry.allowedArgs := by
          by_cases hempty : entry.allowedArgs = []
          · exact Or.inl hempty
          · simpa [hempty] using hbad
        have hok : (engine.submitCommand sessionId command args nowMs).2 =
            .ok engine.nextCommandId := by
          simp only [submitCommand, hget, hactive, hidle, hfind, hbad, ne_eq, not_true_eq_false,
            if_false]
        have hpermits : Permits (engine.allowedFor session.platform) command args :=
          ⟨entry, List.mem_of_find?_eq_some hfind, hname, hargs⟩
        simp only [submitCommand, hget, hactive, hidle, hfind, hbad, ne_eq, not_true_eq_false,
          if_false]
        refine .recorded session hget hactive _ _ rfl fun _ => ?_
        exact ⟨session, nowMs, rfl, hget, hactive, Nat.not_lt.mp hidle, hpermits, hok⟩

theorem evolves_submitCommand (sessionId command : String) (args : List String) (nowMs : Nat) :
    Evolves LiveResponseSession.Follows engine.sessions
      (engine.submitCommand sessionId command args nowMs).1.sessions := by
  have hsubmitted := engine.submitted sessionId command args nowMs
  generalize (engine.submitCommand sessionId command args nowMs).1 = engine' at hsubmitted ⊢
  cases hsubmitted with
  | refused => exact Evolves.refl LiveResponseSession.Follows.refl _
  | timedOut session hget hactive =>
    apply evolves_modifySession
    exact fun s _ => LiveResponseSession.follows_of_commands_eq rfl (fun _ => by simp) rfl
  | recorded session hget hactive record lastActivity _ _ =>
    refine evolves_modifySession fun s hs => ?_
    obtain rfl : session = s := Option.some.inj (hget.symm.trans hs)
    exact ⟨rfl, fun h => absurd hactive h,
      (Evolves.refl CommandRecord.Follows.refl session.commands).append [record]⟩

theorem evolves_completeCommand {sessionId commandId : String} {status : CommandStatus}
    {output error : Option String} {nowMs : Nat}
    (h : engine.Proper (.completeCommand sessionId commandId status output error nowMs)) :
    Evolves LiveResponseSession.Follows engine.sessions
      (engine.completeCommand sessionId commandId status output error nowMs).1.sessions := by
  unfold completeCommand
  split
  · exact Evolves.refl LiveResponseSession.Follows.refl _
  · split
    · apply evolves_modifySession
      intro s hs
      refine ⟨rfl, fun hleft => ⟨hleft, length_updateFirst⟩, ?_⟩
      apply evolves_updateFirst CommandRecord.Follows.refl
      intro c hc
      refine ⟨rfl, fun hdenied => ?_⟩
      by_contra hstatus
      exact h hstatus s hs c hc hdenied
    · exact Evolves.refl LiveResponseSession.Follows.refl _

theorem evolves_closeSession {sessionId : String} {reason : SessionStatus}
    (h : engine.Proper (.closeSession sessionId reason)) :
    Evolves LiveResponseSession.Follows engine.sessions
      (engine.closeSession sessionId reason).1.sessions := by
  unfold closeSession
  split
  · exact Evolves.refl LiveResponseSession.Follows.refl _
  · apply evolves_modifySession
    intro s hs
    refine LiveResponseSession.follows_of_commands_eq rfl (fun hleft hreason => ?_) rfl
    exact hleft (h hreason s hs)

theorem follows_checkTimeout (nowMs : Nat) (s : LiveResponseSession) :
    s.Follows (s.checkTimeout nowMs) := by
  unfold LiveResponseSession.checkTimeout
  split
  · exact LiveResponseSession.follows_of_commands_eq rfl (fun _ => by simp) rfl
  · exact LiveResponseSession.Follows.refl s

theorem evolves_perform (h : engine.Proper call) :
    Evolves LiveResponseSession.Follows engine.sessions (engine.perform call).sessions := by
  cases call with
  | openSession agentId hostname platform operator nowMs =>
    exact (Evolves.refl LiveResponseSession.Follows.refl engine.sessions).append _
  | setAllowedCommands platform commands =>
    exact Evolves.refl LiveResponseSession.Follows.refl engine.sessions
  | submitCommand sessionId command args nowMs =>
    exact evolves_submitCommand sessionId command args nowMs
  | completeCommand sessionId commandId status output error nowMs =>
    exact evolves_completeCommand h
  | recordFileRetrieval sessionId remotePath localPath sizeBytes sha256 nowMs =>
    show Evolves _ _
      (engine.recordFileRetrieval sessionId remotePath localPath sizeBytes sha256 nowMs).1.sessions
    unfold recordFileRetrieval
    split
    · exact Evolves.refl LiveResponseSession.Follows.refl _
    · apply evolves_modifySession
      exact fun s _ => LiveResponseSession.follows_of_commands_eq rfl id rfl
  | closeSession sessionId reason => exact evolves_closeSession h
  | checkTimeouts nowMs => exact evolves_map (follows_checkTimeout nowMs) engine.sessions

/-! ### Accepted commands -/

/-- The record is one of the session's before, or it was accepted by the call, or it is denied. -/
structure Origin (engine : LiveResponseEngine) (call : Call) (sessionId : String)
    (c : CommandRecord) : Prop where
  of_not_denied : c.status ≠ .denied → engine.Accepts call sessionId c ∨
    ∃ s ∈ engine.sessions, s.sessionId = sessionId ∧
      ∃ b ∈ s.commands, b.status ≠ .denied ∧ b.commandId = c.commandId ∧
        b.command = c.command ∧ b.args = c.args

theorem origin_of_mem {s : LiveResponseSession} {c : CommandRecord} (hs : s ∈ engine.sessions)
    (hc : c ∈ s.commands) : engine.Origin call s.sessionId c :=
  ⟨fun h => Or.inr ⟨s, hs, rfl, c, hc, h, rfl, rfl, rfl⟩⟩

theorem mem_of_getSession {sessionId : String} {s : LiveResponseSession}
    (h : engine.getSession sessionId = some s) : s ∈ engine.sessions :=
  List.mem_of_find?_eq_some h

theorem sessionId_of_getSession {sessionId : String} {s : LiveResponseSession}
    (h : engine.getSession sessionId = some s) : s.sessionId = sessionId := by
  have hfound := List.find?_some h
  exact of_decide_eq_true hfound

theorem origin_modifySession {sessionId : String}
    {f : LiveResponseSession → LiveResponseSession} {s : LiveResponseSession}
    (hs : s ∈ (engine.modifySession sessionId f).sessions)
    (hid : ∀ s, (f s).sessionId = s.sessionId)
    (hf : ∀ s, engine.getSession sessionId = some s → s.sessionId = sessionId →
      ∀ c ∈ (f s).commands, engine.Origin call s.sessionId c)
    {c : CommandRecord} (hc : c ∈ s.commands) : engine.Origin call s.sessionId c := by
  rcases mem_updateFirst hs with hold | ⟨b, hfind, rfl⟩
  · exact origin_of_mem hold hc
  · rw [hid]
    exact hf b hfind (sessionId_of_getSession hfind) c hc

/-- The same for a change that leaves the commands alone. -/
theorem origin_of_commands_eq {sessionId : String}
    {f : LiveResponseSession → LiveResponseSession} {s : LiveResponseSession}
    (hs : s ∈ (engine.modifySession sessionId f).sessions)
    (hid : ∀ s, (f s).sessionId = s.sessionId) (hcommands : ∀ s, (f s).commands = s.commands)
    {c : CommandRecord} (hc : c ∈ s.commands) : engine.Origin call s.sessionId c := by
  refine origin_modifySession hs hid (fun b hb _ c hc => ?_) hc
  rw [hcommands] at hc
  exact origin_of_mem (mem_of_getSession hb) hc

theorem origin_submitCommand {sessionId command : String} {args : List String} {nowMs : Nat}
    {s : LiveResponseSession}
    (hs : s ∈ (engine.submitCommand sessionId command args nowMs).1.sessions)
    {c : CommandRecord} (hc : c ∈ s.commands) :
    engine.Origin (.submitCommand sessionId command args nowMs) s.sessionId c := by
  have hsubmitted := engine.submitted sessionId command args nowMs
  generalize (engine.submitCommand sessionId command args nowMs).1 = engine' at hsubmitted hs
  cases hsubmitted with
  | refused => exact origin_of_mem hs hc
  | timedOut session hget hactive =>
    exact origin_of_commands_eq hs (fun _ => rfl) (fun _ => rfl) hc
  | recorded session hget hactive record lastActivity _ haccepted =>
    have hs' : s ∈ (engine.modifySession sessionId fun s =>
      { s with commands := s.commands ++ [record], lastActivity := lastActivity }).sessions := hs
    refine origin_modifySession hs' (fun _ => rfl) (fun s hs hid c hc => ?_) hc
    rcases List.mem_append.mp hc with hold | hnew
    · exact origin_of_mem (mem_of_getSession hs) hold
    · rw [List.mem_singleton.mp hnew, hid]
      exact ⟨fun h => Or.inl (haccepted h)⟩

theorem origin_completeCommand {sessionId commandId : String} {status : CommandStatus}
    {output error : Option String} {nowMs : Nat}
    (h : engine.Proper (.completeCommand sessionId commandId status output error nowMs))
    {s : LiveResponseSession}
    (hs : s ∈ (engine.completeCommand sessionId commandId status output error nowMs).1.sessions)
    {c : CommandRecord} (hc : c ∈ s.commands) : engine.Origin call s.sessionId c := by
  unfold completeCommand at hs
  split at hs
  · exact origin_of_mem hs hc
  · split at hs
    · refine origin_modifySession hs (fun _ => rfl) (fun s hs _ c hc => ?_) hc
      rcases mem_updateFirst hc with hold | ⟨b, hfind, rfl⟩
      · exact origin_of_mem (mem_of_getSession hs) hold
      · refine ⟨fun hstatus => Or.inr ⟨s, mem_of_getSession hs, rfl, b,
          List.mem_of_find?_eq_some hfind, ?_, rfl, rfl, rfl⟩⟩
        exact h hstatus s hs b hfind
    · exact origin_of_mem hs hc

theorem origin_perform (h : engine.Proper call) {s : LiveResponseSession}
    (hs : s ∈ (engine.perform call).sessions) {c : CommandRecord} (hc : c ∈ s.commands) :
    engine.Origin call s.sessionId c := by
  cases call with
  | openSession agentId hostname platform operator nowMs =>
    rcases List.mem_append.mp hs with hold | hnew
    · exact origin_of_mem hold hc
    · rw [List.mem_singleton.mp hnew] at hc
      exact absurd hc List.not_mem_nil
  | setAllowedCommands platform commands => exact origin_of_mem hs hc
  | submitCommand sessionId command args nowMs => exact origin_submitCommand hs hc
  | completeCommand sessionId commandId status output error nowMs =>
    exact origin_completeCommand h hs hc
  | recordFileRetrieval sessionId remotePath localPath sizeBytes sha256 nowMs =>
    change s ∈ (engine.recordFileRetrieval sessionId remotePath localPath sizeBytes sha256
      nowMs).1.sessions at hs
    unfold recordFileRetrieval at hs
    split at hs
    · exact origin_of_mem hs hc
    · exact origin_of_commands_eq hs (fun _ => rfl) (fun _ => rfl) hc
  | closeSession sessionId reason =>
    change s ∈ (engine.closeSession sessionId reason).1.sessions at hs
    unfold closeSession at hs
    split at hs
    · exact origin_of_mem hs hc
    · exact origin_of_commands_eq hs (fun _ => rfl) (fun _ => rfl) hc
  | checkTimeouts nowMs =>
    obtain ⟨b, hb, rfl⟩ := List.mem_map.mp hs
    have hsame : (b.checkTimeout nowMs).sessionId = b.sessionId ∧
        (b.checkTimeout nowMs).commands = b.commands := by
      unfold LiveResponseSession.checkTimeout
      split <;> exact ⟨rfl, rfl⟩
    rw [hsame.2] at hc
    rw [hsame.1]
    exact origin_of_mem hb hc

/-! ### The ids of the commands -/

/-- The ids of all commands. -/
def commandIds (engine : LiveResponseEngine) : List String :=
  engine.sessions.flatMap fun s => s.commands.map CommandRecord.commandId

/-- The ids are different and were given out. -/
structure Numbered (engine : LiveResponseEngine) : Prop where
  nodup : engine.commandIds.Nodup
  given : ∀ id ∈ engine.commandIds, ∃ k < engine.nextCmdId, id = "cmd-" ++ toString k

theorem auditLog_commandIds (engine : LiveResponseEngine) :
    engine.auditLog.map (fun entry => entry.2.commandId) = engine.commandIds := by
  simp only [auditLog, commandIds, List.map_flatMap, List.map_map]
  rfl

theorem commandIds_eq_flatten (engine : LiveResponseEngine) :
    engine.commandIds =
      (engine.sessions.map fun s => s.commands.map CommandRecord.commandId).flatten :=
  List.flatMap_def

theorem commandIds_modifySession {sessionId : String}
    {f : LiveResponseSession → LiveResponseSession}
    (hf : ∀ s, (f s).commands.map CommandRecord.commandId =
      s.commands.map CommandRecord.commandId) :
    (engine.modifySession sessionId f).commandIds = engine.commandIds := by
  rw [commandIds_eq_flatten, commandIds_eq_flatten]
  exact congrArg List.flatten (map_updateFirst hf)

theorem Numbered.of_eq {engine' : LiveResponseEngine} (h : engine.Numbered)
    (hids : engine'.commandIds = engine.commandIds) (hnext : engine'.nextCmdId = engine.nextCmdId) :
    engine'.Numbered := by
  refine ⟨?_, ?_⟩
  · rw [hids]
    exact h.nodup
  · rw [hids, hnext]
    exact h.given

theorem Numbered.recordCommand (h : engine.Numbered) {sessionId : String}
    {s : LiveResponseSession} (hget : engine.getSession sessionId = some s)
    {record : CommandRecord} (hid : record.commandId = engine.nextCommandId) (lastActivity : Nat) :
    (engine.recordCommand sessionId record lastActivity).Numbered := by
  have hany : engine.sessions.any (fun s => s.sessionId = sessionId) = true :=
    List.any_eq_true.mpr
      ⟨s, mem_of_getSession hget, decide_eq_true (sessionId_of_getSession hget)⟩
  have hperm : (engine.recordCommand sessionId record lastActivity).commandIds.Perm
      (engine.commandIds ++ [engine.nextCommandId]) := by
    apply perm_flatMap_updateFirst hany
    intro s
    rw [List.map_append, List.map_singleton, hid]
  have hfresh : engine.nextCommandId ∉ engine.commandIds := by
    intro hmem
    obtain ⟨k, hk, heq⟩ := h.given _ hmem
    exact hk.ne (numbered_injective "cmd-" heq).symm
  refine ⟨?_, ?_⟩
  · rw [hperm.nodup_iff, ← List.concat_eq_append]
    exact h.nodup.concat hfresh
  · intro id hmem
    rcases List.mem_append.mp (hperm.mem_iff.mp hmem) with hold | hnew
    · obtain ⟨k, hk, rfl⟩ := h.given id hold
      exact ⟨k, hk.trans (Nat.lt_succ_self _), rfl⟩
    · exact ⟨engine.nextCmdId, Nat.lt_succ_self _, List.mem_singleton.mp hnew⟩

theorem numbered_new (timeoutSecs : Nat) : (new timeoutSecs).Numbered :=
  ⟨List.nodup_nil, fun _ h => absurd h List.not_mem_nil⟩

theorem Numbered.perform (h : engine.Numbered) (call : Call) : (engine.perform call).Numbered := by
  cases call with
  | openSession agentId hostname platform operator nowMs =>
    refine h.of_eq ?_ rfl
    simp [LiveResponseEngine.perform, openSession, commandIds]
  | setAllowedCommands platform commands => exact h.of_eq rfl rfl
  | submitCommand sessionId command args nowMs =>
    show (engine.submitCommand sessionId command args nowMs).1.Numbered
    have hsubmitted := engine.submitted sessionId command args nowMs
    generalize (engine.submitCommand sessionId command args nowMs).1 = engine' at hsubmitted ⊢
    cases hsubmitted with
    | refused => exact h
    | timedOut session hget hactive => exact h.of_eq (commandIds_modifySession fun _ => rfl) rfl
    | recorded session hget hactive record lastActivity hid _ =>
      exact h.recordCommand hget hid lastActivity
  | completeCommand sessionId commandId status output error nowMs =>
    show (engine.completeCommand sessionId commandId status output error nowMs).1.Numbered
    unfold completeCommand
    split
    · exact h
    · split
      · exact h.of_eq (commandIds_modifySession fun s => map_updateFirst fun _ => rfl) rfl
      · exact h
  | recordFileRetrieval sessionId remotePath localPath sizeBytes sha256 nowMs =>
    show (engine.recordFileRetrieval sessionId remotePath localPath sizeBytes sha256
      nowMs).1.Numbered
    unfold recordFileRetrieval
    split
    · exact h
    · exact h.of_eq (commandIds_modifySession fun _ => rfl) rfl
  | closeSession sessionId reason =>
    show (engine.closeSession sessionId reason).1.Numbered
    unfold closeSession
    split
    · exact h
    · exact h.of_eq (commandIds_modifySession fun _ => rfl) rfl
  | checkTimeouts nowMs =>
    refine h.of_eq ?_ rfl
    show (engine.sessions.map _).flatMap _ = _
    rw [List.flatMap_map]
    refine List.flatMap_congr fun s _ => ?_
    unfold LiveResponseSession.checkTimeout
    split <;> rfl

/-! ### Improper calls -/

/-- A call after which every session and every command follows on what it was is proper. -/
theorem proper_of_evolves
    (h : Evolves LiveResponseSession.Follows engine.sessions (engine.perform call).sessions) :
    engine.Proper call := by
  cases call with
  | completeCommand sessionId commandId status output error nowMs =>
    intro hstatus s hs c hc hdenied
    have hid := List.find?_some hc
    have hany : (s.commands.any fun c => c.commandId = commandId) = true :=
      List.any_eq_true.mpr ⟨c, List.mem_of_find?_eq_some hc, hid⟩
    simp only [perform, completeCommand, hs, hany, if_true] at h
    obtain ⟨i, hi, hi'⟩ := exists_getElem?_updateFirst hs
    obtain ⟨s', hs', hfollows⟩ := h i s hi
    obtain rfl := Option.some.inj (hi'.symm.trans hs')
    obtain ⟨j, hj, hj'⟩ := exists_getElem?_updateFirst hc
    obtain ⟨c', hc', hfollows'⟩ := hfollows.commands j c hj
    obtain rfl := Option.some.inj (hj'.symm.trans hc')
    exact hstatus (hfollows'.denied hdenied)
  | closeSession sessionId reason =>
    intro hreason s hs
    by_contra hleft
    simp only [perform, closeSession, hs] at h
    obtain ⟨i, hi, hi'⟩ := exists_getElem?_updateFirst hs
    obtain ⟨s', hs', hfollows⟩ := h i s hi
    obtain rfl := Option.some.inj (hi'.symm.trans hs')
    exact (hfollows.left hleft).1 hreason
  | _ => trivial

end LiveResponseEngine

/-! ### Whole runs -/

variable {timeoutSecs : Nat} {calls : List Call}

theorem after_append (timeoutSecs : Nat) (as bs : List Call) :
    after timeoutSecs (as ++ bs) =
      run LiveResponseEngine.perform (after timeoutSecs as) bs := run_append _ as bs

theorem after_concat (timeoutSecs : Nat) (as : List Call) (call : Call) :
    after timeoutSecs (as ++ [call]) = (after timeoutSecs as).perform call :=
  after_append timeoutSecs as [call]

theorem evolves_run (h : Along LiveResponseEngine.perform LiveResponseEngine.Proper engine calls) :
    Evolves LiveResponseSession.Follows engine.sessions
      (run LiveResponseEngine.perform engine calls).sessions := by
  induction calls generalizing engine with
  | nil => exact Evolves.refl LiveResponseSession.Follows.refl engine.sessions
  | cons call calls ih =>
    exact (LiveResponseEngine.evolves_perform h.1).trans LiveResponseSession.Follows.trans (ih h.2)

theorem numbered_after (timeoutSecs : Nat) (calls : List Call) :
    (after timeoutSecs calls).Numbered := by
  induction calls using List.reverseRecOn with
  | nil => exact LiveResponseEngine.numbered_new timeoutSecs
  | append_singleton calls call ih =>
    rw [after_concat]
    exact ih.perform call

/-- By induction on the run: a command that is not denied was accepted by the last call, or it was
there before it and not denied. -/
theorem exists_accepts
    (h : Along LiveResponseEngine.perform LiveResponseEngine.Proper (.new timeoutSecs) calls)
    {s : LiveResponseSession} (hs : s ∈ (after timeoutSecs calls).sessions) {c : CommandRecord}
    (hc : c ∈ s.commands) (hstatus : c.status ≠ .denied) :
    ∃ before call rest, calls = before ++ call :: rest ∧
      (after timeoutSecs before).Accepts call s.sessionId c := by
  induction calls using List.reverseRecOn generalizing s c with
  | nil => exact absurd hs List.not_mem_nil
  | append_singleton calls call ih =>
    obtain ⟨hcalls, hcall⟩ := Along.append.mp h
    rw [after_concat] at hs
    have horigin := LiveResponseEngine.origin_perform hcall.1 hs hc
    rcases horigin.of_not_denied hstatus with haccepts | ⟨b, hb, hid, d, hd, hd', hcid, hcmd, hargs⟩
    · exact ⟨calls, call, [], rfl, haccepts⟩
    · obtain ⟨before, e, rest, rfl, haccepts⟩ := ih hcalls hb hd hd'
      refine ⟨before, e, rest ++ [call], by simp, ?_⟩
      unfold LiveResponseEngine.Accepts at haccepts ⊢
      rwa [hid, hcid, hcmd, hargs] at haccepts

/-- The sessions are controlled if and only if every call of the run is proper. -/
theorem controlled_iff (timeoutSecs : Nat) (calls : List Call) :
    Controlled timeoutSecs calls ↔
      Along LiveResponseEngine.perform LiveResponseEngine.Proper (.new timeoutSecs) calls := by
  constructor
  · intro h
    rw [along_iff]
    rintro as call bs rfl
    apply LiveResponseEngine.proper_of_evolves
    have hfollows := h.follows as [call] bs (by simp)
    rwa [after_concat] at hfollows
  · intro h
    refine ⟨?_, ?_, ?_⟩
    · rintro as bs rfl s hs c hc hstatus
      exact exists_accepts (Along.append.mp h).1 hs hc hstatus
    · rintro as bs cs rfl
      rw [after_append]
      exact evolves_run (Along.append.mp (Along.append.mp h).1).2
    · rintro as bs rfl
      rw [LiveResponseEngine.auditLog_commandIds]
      exact (numbered_after timeoutSecs as).nodup

/-- A command that is not allowed is denied. -/
def deniedRemoval : List Call :=
  [.openSession "agent-1" "host" .linux "analyst" 1000,
    .submitCommand "lr-1" "rm" ["-rf", "/"] 2000]

/-- The report of a denied command as completed, and a session that is closed as active after it
was closed. -/
theorem not_controlled :
    ¬ Controlled 1800
      (deniedRemoval ++ [.completeCommand "lr-1" "cmd-1" .completed (some "") none 3000]) ∧
    ¬ Controlled 1800
      (deniedRemoval ++ [.closeSession "lr-1" .closedByOperator] ++
        [.closeSession "lr-1" .active]) := by
  constructor
  · intro h
    have hfollows := h.follows deniedRemoval _ [] (List.append_nil _).symm
    rw [after_concat] at hfollows
    exact LiveResponseEngine.proper_of_evolves hfollows (by decide) _ rfl _ rfl rfl
  · intro h
    have hfollows := h.follows _ _ [] (List.append_nil _).symm
    rw [after_concat _ _ (.closeSession "lr-1" .active)] at hfollows
    exact absurd (LiveResponseEngine.proper_of_evolves hfollows rfl _ rfl) (by decide)

end Wardex.LiveResponse
