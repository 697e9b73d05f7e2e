import Mathlib.Data.List.DropRight
import Wardex.Lib.Text

/-! The executor of containment commands, and which programs a command text makes a shell start.
The shell and the clock are parameters. -/

namespace Wardex.Enforcement

open Wardex.Lib

structure ContainmentCommand where
  name : String
  command : String
  requiresElevation : Bool

structure ExecutionResult where
  commandName : String
  executed : Bool
  exitCode : Option Int
  stdout : String
  stderr : String
  durationMs : UInt64
  dryRun : Bool

structure EnforcementExecutor where
  dryRun : Bool
  executionLog : List ExecutionResult
  allowedCommands : List String

/-- A shell answers with an exit code and two texts or cannot be started; `ran` is what was handed
to it. -/
structure Host where
  shell : String → Except String (Int × String × String)
  ran : List String

def Host.runShellCommand (host : Host) (command : String) :
    Host × Except String (Int × String × String) :=
  ({ host with ran := host.ran ++ [command] }, host.shell command)

/-- What follows the last slash. -/
def baseName (word : List Char) : String := String.ofList (word.rtakeWhile (· ≠ '/'))

/-- The base name of the first word. -/
def commandBase (command : String) : String := baseName ((words command.toList).headD [])

namespace EnforcementExecutor

def new (dryRun : Bool) : EnforcementExecutor where
  dryRun := dryRun
  executionLog := []
  allowedCommands := ["kill", "pfctl", "nft", "iptables", "chmod", "mv", "mkdir", "echo"]

def setDryRun (exec : EnforcementExecutor) (dryRun : Bool) : EnforcementExecutor :=
  { exec with dryRun := dryRun }

def isCommandAllowed (exec : EnforcementExecutor) (command : String) : Bool :=
  exec.allowedCommands.any (· == commandBase command)

def push (exec : EnforcementExecutor) (result : ExecutionResult) :
    EnforcementExecutor × ExecutionResult :=
  ({ exec with executionLog := exec.executionLog ++ [result] }, result)

/-- `duration` is the time measured. -/
def execute (exec : EnforcementExecutor) (host : Host) (cmd : ContainmentCommand)
    (duration : UInt64) : Host × EnforcementExecutor × ExecutionResult :=
  if exec.dryRun then
    (host, exec.push
      { commandName := cmd.name
        executed := false
        exitCode := none
        stdout := "[DRY RUN] would execute: " ++ cmd.command
        stderr := ""
        durationMs := 0
        dryRun := true })
  else if !exec.isCommandAllowed cmd.command then
    (host, exec.push
      { commandName := cmd.name
        executed := false
        exitCode := none
        stdout := ""
        stderr := "command blocked by safety filter: " ++ cmd.command
        durationMs := duration
        dryRun := false })
  else
    let (host, output) := host.runShellCommand cmd.command
    match output with
    | .ok (code, stdout, stderr) =>
      (host, exec.push
        { commandName := cmd.name
          executed := true
          exitCode := some code
          stdout
          stderr
          durationMs := duration
          dryRun := false })
    | .error e =>
      (host, exec.push
        { commandName := cmd.name
          executed := false
          exitCode := none
          stdout := ""
          stderr := e
          durationMs := duration
          dryRun := false })

end EnforcementExecutor

/-! ## What a shell makes of a text -/

/-- How a character of a shell text is quoted. -/
inductive Quoting where
  | bare
  | escaped
  | single
  | double
  | doubleEscaped
deriving DecidableEq

def Quoting.next : Quoting → Char → Quoting
  | bare, c =>
    if c = '\\' then escaped else if c = '\'' then single else if c = '"' then double else bare
  | escaped, _ => bare
  | single, c => if c = '\'' then bare else single
  | double, c => if c = '"' then bare else if c = '\\' then doubleEscaped else double
  | doubleEscaped, _ => double

def isSeparator (c : Char) : Bool := c == ';' || c == '&' || c == '|' || c == '\n'

/-- The parts between separators that are not quoted.  A doubled separator has an empty part in
it. -/
def parts : Quoting → List Char → List (List Char)
  | _, [] => [[]]
  | q, c :: rest =>
    if q = .bare ∧ isSeparator c then [] :: parts .bare rest
    else (parts (q.next c) rest).modifyHead (c :: ·)

/-- The first words of the parts that have one. -/
def programs (command : String) : List (List Char) :=
  (parts .bare command.toList).filterMap fun part => (words part).head?

example : programs "echo 'a; b' && /bin/rm x;" = ["echo".toList, "/bin/rm".toList] := by decide

variable {exec : EnforcementExecutor} {host : Host} {cmd : ContainmentCommand} {duration : UInt64}

theorem isCommandAllowed_iff (command : String) :
    exec.isCommandAllowed command ↔ commandBase command ∈ exec.allowedCommands := by
  simp [EnforcementExecutor.isCommandAllowed]

theorem ran_execute :
    (exec.execute host cmd duration).1.ran =
      if exec.dryRun = false ∧ commandBase cmd.command ∈ exec.allowedCommands then
        host.ran ++ [cmd.command]
      else host.ran := by
  unfold EnforcementExecutor.execute
  simp only [← isCommandAllowed_iff]
  cases hdry : exec.dryRun with
  | true => simp
  | false =>
    cases hallowed : exec.isCommandAllowed cmd.command with
    | false => simp
    | true =>
      have hran : (host.runShellCommand cmd.command).1.ran = host.ran ++ [cmd.command] := rfl
      simp only [Bool.false_eq_true, if_false, Bool.not_true, and_self, if_true]
      split <;> exact hran

/-- The text is handed to the shell only if the base name of every program that it starts is
allowed. -/
def Checked (exec : EnforcementExecutor) (host : Host) (cmd : ContainmentCommand)
    (duration : UInt64) : Prop :=
  (exec.execute host cmd duration).1.ran ≠ host.ran →
    ∀ program ∈ programs cmd.command, baseName program ∈ exec.allowedCommands

theorem ran_ne_iff : (exec.execute host cmd duration).1.ran ≠ host.ran ↔
    exec.dryRun = false ∧ commandBase cmd.command ∈ exec.allowedCommands := by
  rw [ran_execute]
  split_ifs with h
  · exact iff_of_true (by simp) h
  · exact iff_of_false (fun hne => hne rfl) h

/-- **What the filter checks.**  A text is handed to the shell exactly if this is no dry run and the
base name of its first word is allowed.  Every executor checks all the programs that a text starts
if and only if they have the base name of the first word. -/
theorem executor_checks_first_word :
    (∀ exec host cmd duration, (EnforcementExecutor.execute exec host cmd duration).1.ran =
      if exec.dryRun = false ∧ commandBase cmd.command ∈ exec.allowedCommands then
        host.ran ++ [cmd.command]
      else host.ran) ∧
      ∀ cmd, (∀ exec host duration, Checked exec host cmd duration) ↔
        ∀ program ∈ programs cmd.command, baseName program = commandBase cmd.command := by
  refine ⟨fun _ _ _ _ => ran_execute, fun cmd => ⟨fun h program hprogram => ?_, ?_⟩⟩
  · -- an executor that allows nothing but the base name of the first word
    have hchecked := h ⟨false, [], [commandBase cmd.command]⟩ ⟨fun _ => .error "", []⟩ 0
    exact List.mem_singleton.mp
      (hchecked (ran_ne_iff.mpr ⟨rfl, List.mem_singleton_self _⟩) program hprogram)
  · intro h exec host duration hran program hprogram
    rw [h program hprogram]
    exact (ran_ne_iff.mp hran).2

/-- Another program behind a separator, and a program elsewhere with an allowed base name. -/
theorem rm_handed_to_shell :
    ((EnforcementExecutor.new false).execute ⟨fun _ => .ok (0, "ok\n", ""), []⟩
        ⟨"cleanup", "echo ok; rm -rf /srv", false⟩ 1).1.ran = ["echo ok; rm -rf /srv"] ∧
      "rm".toList ∈ programs "echo ok; rm -rf /srv" ∧
      "rm" ∉ (EnforcementExecutor.new false).allowedCommands ∧
      ((EnforcementExecutor.new false).execute ⟨fun _ => .ok (0, "", ""), []⟩
        ⟨"note", "/tmp/x/echo hi", false⟩ 1).1.ran = ["/tmp/x/echo hi"] ∧
      "/tmp/x/echo".toList ∈ programs "/tmp/x/echo hi" ∧
      "/tmp/x/echo" ∉ (EnforcementExecutor.new false).allowedCommands := by
  decide

/-! ## Texts with one part -/

theorem parts_ne_nil (q : Quoting) (text : List Char) : parts q text ≠ [] := by
  induction text generalizing q with
  | nil => exact List.cons_ne_nil _ _
  | cons c rest ih =>
    rw [parts]
    split_ifs
    · exact List.cons_ne_nil _ _
    · exact fun h => ih (q.next c) (List.modifyHead_eq_nil_iff.mp h)

theorem parts_eq_singleton {q : Quoting} {text : List Char} (h : (parts q text).length = 1) :
    parts q text = [text] := by
  induction text generalizing q with
  | nil => rfl
  | cons c rest ih =>
    rw [parts] at h ⊢
    split_ifs at h ⊢ with hsep
    · exact absurd (List.length_eq_zero_iff.mp (Nat.succ.inj h)) (parts_ne_nil .bare rest)
    · rw [List.length_modifyHead] at h
      rw [ih h, List.modifyHead_cons]

/-- A text without a separator starts the program of its first word. -/
theorem programs_of_one_part {command : String}
    (h : (parts .bare command.toList).length = 1) :
    ∀ program ∈ programs command, baseName program = commandBase command := by
  intro program hprogram
  rw [programs, parts_eq_singleton h, List.mem_filterMap] at hprogram
  obtain ⟨part, hpart, hhead⟩ := hprogram
  obtain rfl := List.mem_singleton.mp hpart
  rw [commandBase, List.headD_eq_head?_getD, hhead, Option.getD_some]

end Wardex.Enforcement
