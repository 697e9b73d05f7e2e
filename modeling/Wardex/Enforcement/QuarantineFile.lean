import Mathlib.Data.List.Infix
import Wardex.Enforcement.Executor
import Wardex.Lib.Delimited
import Wardex.Lib.Shell

/-! The command that moves a file to the vault.  Both paths stand between single quotes in it, and
what is refused before are other characters than the quote. -/

namespace Wardex.Enforcement

open Wardex.Lib Wardex.Lib.Shell

/-- The characters that a path must not contain. -/
def disallowedCharacters : List Char := ['\x00', '`', '$', ';', '|', '&']

def rejectedPath (path vaultDir : String) : Bool :=
  "..".toList <:+: path.toList || "..".toList <:+: vaultDir.toList ||
    [path, vaultDir].any fun s => disallowedCharacters.any fun c => s.toList.contains c

def quarantineCommand (path vaultDir : String) : String :=
  "mkdir -p '" ++ vaultDir ++ "' && mv '" ++ path ++ "' '" ++ vaultDir ++ "/'"

namespace EnforcementExecutor

/-- A path that is refused leaves no trace in the log. -/
def quarantineFile (exec : EnforcementExecutor) (host : Host) (path vaultDir : String)
    (duration : UInt64) : Host × EnforcementExecutor × ExecutionResult :=
  if rejectedPath path vaultDir then
    (host, exec,
      { commandName := "quarantine_file"
        executed := false
        exitCode := none
        stdout := ""
        stderr := "rejected: path contains disallowed characters"
        durationMs := 0
        dryRun := exec.dryRun })
  else
    exec.execute host
      { name := "quarantine_file"
        command := quarantineCommand path vaultDir
        requiresElevation := true }
      duration

end EnforcementExecutor

/-- `mkdir -p vault_dir && mv path vault_dir/`, as tokens. -/
def quarantineTokens (path vaultDir : List Char) : List Token :=
  [marked false "mkdir".toList, marked false "-p".toList, marked false vaultDir] ++
    .operator "&&".toList ::
      [marked false "mv".toList, marked false path, marked false (vaultDir ++ ['/'])]

/-- The text is these two commands, and no character of it stands for other words. -/
def TwoCommands (command path vaultDir : String) : Prop :=
  ∃ toks, Shell.tokens command.toList = some toks ∧
    toks.map Token.unmark = quarantineTokens path.toList vaultDir.toList ∧
    ∀ token ∈ toks, token.Literal

section

variable {exec : EnforcementExecutor} {host : Host} {path vaultDir : String} {duration : UInt64}

/-- What reaches the shell was not refused. -/
theorem ran_quarantineFile
    (h : (exec.quarantineFile host path vaultDir duration).1.ran ≠ host.ran) :
    rejectedPath path vaultDir = false ∧
      (exec.quarantineFile host path vaultDir duration).1.ran =
        host.ran ++ [quarantineCommand path vaultDir] := by
  unfold EnforcementExecutor.quarantineFile at h ⊢
  cases hrejected : rejectedPath path vaultDir with
  | true =>
    rw [hrejected, if_pos rfl] at h
    exact absurd rfl h
  | false =>
    rw [hrejected, if_neg Bool.false_ne_true] at h
    rw [if_neg Bool.false_ne_true, ran_execute, if_pos (ran_ne_iff.mp h)]
    exact ⟨rfl, rfl⟩

theorem ampersand_not_mem (h : rejectedPath path vaultDir = false) :
    '&' ∉ path.toList ∧ '&' ∉ vaultDir.toList := by
  simp only [rejectedPath, Bool.or_eq_false_iff, List.any_cons, List.any_nil, Bool.or_false] at h
  have hmem : '&' ∈ disallowedCharacters := by decide
  obtain ⟨-, hpath, hvault⟩ := h
  rw [List.any_eq_false] at hpath hvault
  exact ⟨fun hc => hpath '&' hmem (List.contains_iff_mem.mpr hc),
    fun hc => hvault '&' hmem (List.contains_iff_mem.mpr hc)⟩

end

section

variable {path vault : List Char} {s s' : State} {toks : List Token}

/-! ### Paths without quotes -/

/-- The parts of the command between the paths. -/
def beforeVault : List Char := "mkdir -p '".toList

def betweenPaths : List Char := "' && mv '".toList

def afterPath : List Char := "' '".toList

theorem quarantineCommand_toList (path vaultDir : String) :
    (quarantineCommand path vaultDir).toList =
      beforeVault ++ (vaultDir.toList ++ (betweenPaths ++ (path.toList ++
        (afterPath ++ (vaultDir.toList ++ ['/', '\'']))))) := by
  simp only [quarantineCommand, String.toList_append, List.append_assoc]
  rfl

/-- Up to the first path. -/
def atVault : State :=
  ⟨[marked false "mkdir".toList, marked false "-p".toList], some (.word []), .single⟩

theorem run_beforeVault : State.start.run beforeVault = some atVault := by
  decide

/-- Up to the second path. -/
def atPath (vault : List Char) : State :=
  ⟨[marked false "mkdir".toList, marked false "-p".toList, marked true vault,
    .operator "&&".toList, marked false "mv".toList], some (.word []), .single⟩

theorem run_vault (h : '\'' ∉ vault) (rest : List Char) :
    atVault.run (vault ++ (betweenPaths ++ rest)) = (atPath vault).run rest := by
  rw [State.run_append, atVault, State.run_single h, Option.bind_some, State.run_append]
  rfl

/-- The tokens with the marks of what was quoted. -/
def quotedTokens (path vault : List Char) : List Token :=
  [marked false "mkdir".toList, marked false "-p".toList, marked true vault,
    .operator "&&".toList, marked false "mv".toList, marked true path, marked true (vault ++ ['/'])]

/-- Between quotes every character is part of the word. -/
theorem tokens_quarantineCommand {path vaultDir : String} (hpath : '\'' ∉ path.toList)
    (hvault : '\'' ∉ vaultDir.toList) :
    Shell.tokens (quarantineCommand path vaultDir).toList =
      some (quotedTokens path.toList vaultDir.toList) := by
  have hlast : '\'' ∉ vaultDir.toList ++ ['/'] := by
    rw [List.mem_append, not_or]
    exact ⟨hvault, by decide⟩
  have hend (text : List Char) : text ++ ['/', '\''] = (text ++ ['/']) ++ ['\''] := by
    rw [List.append_assoc]
    rfl
  have hgap (done : List Token) (word : List (Char × Bool)) :
      State.run ⟨done, some (.word word), .single⟩ afterPath =
        some ⟨done ++ [.word word], some (.word []), .single⟩ := rfl
  rw [quarantineCommand_toList, State.tokens_append run_beforeVault, run_vault hvault,
    State.run_append, atPath, State.run_single hpath, Option.bind_some, State.run_append, hend,
    hgap, Option.bind_some, State.run_append, State.run_single hlast]
  rfl

theorem unmark_marked (quoted : Bool) (text : List Char) :
    (marked quoted text).unmark = marked false text := by
  simp only [marked, Token.unmark, List.map_map, Function.comp_def, List.map_id']

theorem unmark_quotedTokens (path vault : List Char) :
    (quotedTokens path vault).map Token.unmark = quarantineTokens path vault := by
  simp only [quotedTokens, List.map_cons, List.map_nil, unmark_marked]
  rfl

theorem literal_quotedTokens (path vault : List Char) :
    ∀ token ∈ quotedTokens path vault, token.Literal := by
  have hquoted (text : List Char) : (marked true text).Literal := by
    intro c hc
    obtain ⟨d, -, hd⟩ := List.mem_map.mp hc
    exact Bool.noConfusion (congrArg Prod.snd hd)
  have hbare (text : List Char) (h : (text.all fun c => c ∉ ['*', '?', '[', '~']) = true) :
      (marked false text).Literal := by
    intro c hc
    obtain ⟨d, hd, heq⟩ := List.mem_map.mp hc
    obtain rfl := congrArg Prod.fst heq
    exact of_decide_eq_true (List.all_eq_true.mp h _ hd)
  simp only [quotedTokens, List.forall_mem_cons, hquoted, true_and]
  exact ⟨hbare _ rfl, hbare _ rfl, trivial, hbare _ rfl, nofun⟩

theorem twoCommands_of_not_mem {path vaultDir : String} (hpath : '\'' ∉ path.toList)
    (hvault : '\'' ∉ vaultDir.toList) :
    TwoCommands (quarantineCommand path vaultDir) path vaultDir :=
  ⟨_, tokens_quarantineCommand hpath hvault, unmark_quotedTokens _ _, literal_quotedTokens _ _⟩

/-! ### Paths with a quote -/

theorem length_unmark (token : Token) : token.unmark.length = token.length := by
  cases token with
  | word text => simp only [Token.unmark, marked, Token.length, List.length_map]
  | operator text => rfl

theorem size_unmark (toks : List Token) : State.size (toks.map Token.unmark) = State.size toks := by
  simp only [State.size, List.map_map, Function.comp_def, length_unmark]

theorem operator_mem_unmark {op : List Char} :
    .operator op ∈ toks.map Token.unmark ↔ .operator op ∈ toks := by
  rw [List.mem_map]
  constructor
  · rintro ⟨token, htoken, hunmark⟩
    cases token with
    | word text => cases hunmark
    | operator text =>
      obtain rfl := Token.operator.inj hunmark
      exact htoken
  · exact fun h => ⟨_, h, rfl⟩

theorem size_quarantineTokens (path vault : List Char) :
    State.size (quarantineTokens path vault) = 2 * vault.length + path.length + 12 := by
  simp [State.size, quarantineTokens, marked, Token.length]
  omega

/-- Where quotes or a comment are open, the operator is not one. -/
theorem without_of_not_bare (hmode : s.mode = .single ∨ s.mode = .double ∨ s.mode = .comment)
    (hs : s.Without '&') (h : s.run " && ".toList = some s') : s'.Without '&' := by
  have hstep {s s' : State} {c : Char} (hc : c = ' ' ∨ c = '&')
      (hmode : s.mode = .single ∨ s.mode = .double ∨ s.mode = .comment)
      (h : s.step c = some s') : s' = s ∨ s' = s.push [c] true s.mode := by
    rw [State.step] at h
    rcases hmode with hmode | hmode | hmode
    · rw [hmode] at h ⊢
      rcases hc with rfl | rfl <;> exact .inr (Option.some.inj h).symm
    · rw [hmode] at h ⊢
      rcases hc with rfl | rfl <;> exact .inr (Option.some.inj h).symm
    · rw [hmode] at h
      rcases hc with rfl | rfl <;> exact .inl (Option.some.inj h).symm
  refine State.run_induction (P := fun s text s' => (∀ c ∈ text, c = ' ' ∨ c = '&') →
    (s.mode = .single ∨ s.mode = .double ∨ s.mode = .comment) → s.Without '&' → s'.Without '&')
    (fun s _ _ hs => hs) (fun s c next text s' h ih htext hmode hs => ?_) h ?_ hmode hs
  · obtain ⟨hc, htext⟩ := List.forall_mem_cons.mp htext
    rcases hstep hc hmode h with rfl | rfl
    · exact ih htext hmode hs
    · exact ih htext hmode fun op hop => hs op (State.mem_flushed_push.mp hop)
  · simp

theorem run_and_of_bare (hmode : s.mode = .bare) :
    s.run " && ".toList = some ⟨s.flushed ++ [.operator "&&".toList], none, .bare⟩ := by
  show (s.step ' ').bind (fun s' => s'.run "&& ".toList) = _
  rw [State.step_blank_of_bare hmode, Option.bind_some]
  have hrest : State.run ⟨s.flushed, none, .bare⟩ "&& ".toList =
      some ⟨s.flushed ++ [] ++ [.operator "&&".toList], none, .bare⟩ := rfl
  rw [hrest, List.append_nil]

/-- Without its operator the command has other tokens. -/
theorem unmark_ne_of_without (hs : s.Without '&') (h : s.flushed = toks) :
    toks.map Token.unmark ≠ quarantineTokens path vault := by
  intro heq
  have hmem : .operator "&&".toList ∈ toks.map Token.unmark := by
    rw [heq]
    exact List.mem_append_right _ List.mem_cons_self
  rw [operator_mem_unmark, ← h] at hmem
  exact hs _ hmem (by decide)

/-- The tokens up to the operator are those that were there when it was read. -/
theorem unmark_flushed_eq (hs : s.Without '&')
    (hstart : s.flushed ++ [.operator "&&".toList] <+: toks)
    (h : toks.map Token.unmark = quarantineTokens path vault) :
    s.flushed.map Token.unmark =
      [marked false "mkdir".toList, marked false "-p".toList, marked false vault] := by
  obtain ⟨rest, rfl⟩ := hstart
  have hflushed : Token.operator "&&".toList ∉ s.flushed.map Token.unmark :=
    fun hmem => hs _ (operator_mem_unmark.mp hmem) (by decide)
  rw [List.map_append, List.map_append, List.append_assoc] at h
  exact (fields_unique_of_not_mem h hflushed
    (by simp [marked, Token.unmark])).1

/-- A quote in the vault path: what stands before the operator is too short. -/
theorem unmark_ne_of_mem_vault (rest : List Char) (hvault : '\'' ∈ vault) (hand : '&' ∉ vault)
    (hrest : '&' ∉ rest)
    (h : (atVault.run (vault ++ '\'' :: (" && ".toList ++ rest))).bind State.finish = some toks) :
    toks.map Token.unmark ≠ quarantineTokens path vault := by
  obtain ⟨atEnd, hatEnd, htoks, hweight, hescaped, hdoubleEscaped⟩ :=
    State.exists_run_of_quote hvault h
  rw [State.run_append, Option.bind_assoc] at htoks
  obtain ⟨afterAnd, hafterAnd, htoks⟩ := Option.bind_eq_some_iff.mp htoks
  obtain ⟨final, hfinal, hfinish⟩ := Option.bind_eq_some_iff.mp htoks
  obtain ⟨-, rfl⟩ := State.finish_eq_some_iff.mp hfinish
  have hwithout : atEnd.Without '&' := by
    refine State.Without.run (fun op hop => ?_) (fun hmem => ?_) hatEnd
    · simp [State.flushed, marked] at hop
    · rcases List.mem_append.mp hmem with hmem | hmem
      · exact hand hmem
      · exact absurd (List.mem_singleton.mp hmem) (by decide)
  by_cases hmode : atEnd.mode = .bare
  · -- the operator is one; what was lost before it is missing
    intro heq
    rw [run_and_of_bare hmode] at hafterAnd
    obtain rfl := Option.some.inj hafterAnd
    have hstart := (State.done_extends_of_run hfinal).trans State.done_extends_flushed
    have hsize := congrArg State.size (unmark_flushed_eq hwithout hstart heq)
    have hatEndWeight : atEnd.weight = State.size atEnd.flushed := by
      rw [State.weight, hmode]
      rfl
    have hexpected : State.size [marked false "mkdir".toList, marked false "-p".toList,
        marked false vault] = vault.length + 7 := by
      simp [State.size, marked, Token.length]
      omega
    have hdone : State.size [marked false "mkdir".toList, marked false "-p".toList] = 7 := rfl
    rw [size_unmark, hexpected] at hsize
    omega
  · -- the operator is quoted or in a comment
    have hquoted : atEnd.mode = .single ∨ atEnd.mode = .double ∨ atEnd.mode = .comment := by
      cases hcase : atEnd.mode <;> simp [hcase] at hmode hescaped hdoubleEscaped ⊢
    exact unmark_ne_of_without
      ((without_of_not_bare hquoted hwithout hafterAnd).run hrest hfinal) rfl

/-- The blank and the quote before the vault path come out only if the text between quotes ends
there, or in double quotes. -/
theorem weight_opened (hescaped : s.mode ≠ .escaped) (hdoubleEscaped : s.mode ≠ .doubleEscaped)
    (h : s.run " '".toList = some s') :
    s'.weight ≤ s.weight + s'.mode.depth ∧ (s'.mode = .single → s'.weight ≤ s.weight) := by
  have hrun : (s.step ' ').bind (fun next => next.step '\'') = some s' := by
    rw [← h, show " '".toList = ' ' :: ['\''] from rfl, State.run_cons]
    simp only [State.run_singleton]
  have hle : State.size s.flushed ≤ s.weight := Nat.le_add_right _ _
  cases hmode : s.mode with
  | bare =>
    rw [State.step_blank_of_bare hmode, Option.bind_some] at hrun
    obtain rfl := Option.some.inj hrun
    rw [State.weight_push, State.size_flushed_cut]
    exact ⟨Nat.le_add_right_of_le hle, fun _ => hle⟩
  | single =>
    rw [State.step, hmode] at hrun
    obtain rfl : { s.push [' '] true .single with mode := .bare } = s' := Option.some.inj hrun
    rw [State.weight_turn, State.size_push]
    exact ⟨Nat.add_le_add_right hle 1, fun h => by cases h⟩
  | double =>
    rw [State.step, hmode] at hrun
    obtain rfl : (s.push [' '] true .double).push ['\''] true .double = s' := Option.some.inj hrun
    rw [State.weight_push, State.size_push]
    exact ⟨Nat.add_le_add_right hle 2, fun h => by cases h⟩
  | comment =>
    rw [State.step, hmode, show (if ' ' = '\n' then some (State.mk s.flushed
      (some (.operator [' '])) .bare) else some s) = some s from rfl, Option.bind_some, State.step,
      hmode] at hrun
    obtain rfl : s = s' := Option.some.inj hrun
    exact ⟨Nat.le_add_right _ _, fun _ => le_rfl⟩
  | escaped => exact absurd hmode hescaped
  | doubleEscaped => exact absurd hmode hdoubleEscaped

/-- From the end of the second path on three characters are lost at least. -/
theorem size_le_of_afterPath (hvault : '\'' ∉ vault) (hescaped : s.mode ≠ .escaped)
    (hdoubleEscaped : s.mode ≠ .doubleEscaped)
    (h : (s.run (" '".toList ++ ((vault ++ ['/']) ++ ['\'']))).bind State.finish = some toks) :
    State.size toks ≤ s.weight + vault.length + 1 := by
  obtain ⟨final, hrun, hfinish⟩ := Option.bind_eq_some_iff.mp h
  obtain ⟨hclosed, rfl⟩ := State.finish_eq_some_iff.mp hfinish
  rw [State.run_append] at hrun
  obtain ⟨inVault, hinVault, hrun⟩ := Option.bind_eq_some_iff.mp hrun
  rw [State.run_append] at hrun
  obtain ⟨atEnd, hatEnd, hlast⟩ := Option.bind_eq_some_iff.mp hrun
  rw [State.run_singleton] at hlast
  have hnoQuote : '\'' ∉ vault ++ ['/'] := by
    rw [List.mem_append, not_or]
    exact ⟨hvault, by decide⟩
  obtain ⟨hopened, hopenedSingle⟩ := weight_opened hescaped hdoubleEscaped hinVault
  have hsingle := State.run_single_iff hnoQuote hatEnd
  obtain ⟨hescaped', hdoubleEscaped'⟩ := State.run_mode_of_ne_backslash (by decide) hatEnd
  obtain ⟨hle, hdepth⟩ := State.weight_run hatEnd
  rw [List.length_append, List.length_singleton] at hle hdepth
  have hsize : State.size final.flushed ≤ final.weight := Nat.le_add_right _ _
  cases hmode : atEnd.mode with
  | single =>
    -- these quotes were opened before the vault path
    have hinSingle := hopenedSingle (hsingle.mp hmode)
    have hlastWeight : final.weight ≤ atEnd.weight := by
      rw [State.step, hmode] at hlast
      obtain rfl := Option.some.inj hlast
      exact Nat.le_add_right _ _
    omega
  | comment =>
    rw [State.step, hmode] at hlast
    obtain rfl := Option.some.inj hlast
    rw [hmode, Mode.depth] at hdepth
    omega
  | bare =>
    -- the last quote opens a text that does not end
    rw [State.step_quote_of_bare hmode] at hlast
    obtain rfl := Option.some.inj hlast
    exact absurd hclosed (by simp [State.push_mode])
  | double =>
    rw [State.step, hmode] at hlast
    obtain rfl : atEnd.push ['\''] true .double = final := Option.some.inj hlast
    exact absurd hclosed (by simp [State.push_mode])
  | escaped => exact absurd hmode hescaped'
  | doubleEscaped => exact absurd hmode hdoubleEscaped'

/-- A quote in the path of the file: what comes out is too short. -/
theorem unmark_ne_of_mem_path (hpath : '\'' ∈ path) (hvault : '\'' ∉ vault)
    (h : ((atPath vault).run
      (path ++ '\'' :: (" '".toList ++ ((vault ++ ['/']) ++ ['\''])))).bind State.finish =
        some toks) :
    toks.map Token.unmark ≠ quarantineTokens path vault := by
  obtain ⟨atEnd, hatEnd, htoks, hweight, hescaped, hdoubleEscaped⟩ :=
    State.exists_run_of_quote hpath h
  have hsize := size_le_of_afterPath hvault hescaped hdoubleEscaped htoks
  have hdone : State.size [marked false "mkdir".toList, marked false "-p".toList,
      marked true vault, .operator "&&".toList, marked false "mv".toList] = vault.length + 11 := by
    simp [State.size, marked, Token.length]
    omega
  intro heq
  have hexpected := congrArg State.size heq
  rw [size_unmark, size_quarantineTokens] at hexpected
  omega

theorem not_mem_of_twoCommands {path vaultDir : String}
    (hand : '&' ∉ path.toList ∧ '&' ∉ vaultDir.toList)
    (h : TwoCommands (quarantineCommand path vaultDir) path vaultDir) :
    '\'' ∉ path.toList ∧ '\'' ∉ vaultDir.toList := by
  obtain ⟨toks, htokens, hunmark, -⟩ := h
  rw [quarantineCommand_toList, State.tokens_append run_beforeVault] at htokens
  have hvault : '\'' ∉ vaultDir.toList := by
    intro hmem
    refine unmark_ne_of_mem_vault ("mv '".toList ++ (path.toList ++ (afterPath ++
      (vaultDir.toList ++ ['/', '\''])))) hmem hand.2 ?_ htokens hunmark
    simp [hand.1, hand.2, afterPath]
  refine ⟨fun hmem => ?_, hvault⟩
  rw [run_vault hvault] at htokens
  refine unmark_ne_of_mem_path hmem hvault ?_ hunmark
  rw [List.append_assoc vaultDir.toList]
  exact htokens

end

theorem quarantine_commands_iff {exec : EnforcementExecutor} {host : Host} {path vaultDir : String}
    {duration : UInt64}
    (h : (exec.quarantineFile host path vaultDir duration).1.ran ≠ host.ran) :
    (∃ command, (exec.quarantineFile host path vaultDir duration).1.ran = host.ran ++ [command] ∧
        TwoCommands command path vaultDir) ↔
      '\'' ∉ path.toList ∧ '\'' ∉ vaultDir.toList := by
  obtain ⟨hrejected, hran⟩ := ran_quarantineFile h
  rw [hran]
  constructor
  · rintro ⟨command, hcommand, htwo⟩
    obtain rfl := List.singleton_inj.mp (List.append_cancel_left hcommand)
    exact not_mem_of_twoCommands (ampersand_not_mem hrejected) htwo
  · exact fun hquote => ⟨_, rfl, twoCommands_of_not_mem hquote.1 hquote.2⟩

/-- A file with a blank in its name. -/
theorem quarantine_commands_blank :
    (∃ command, ((EnforcementExecutor.new false).quarantineFile ⟨fun _ => .ok (0, "", ""), []⟩
        "/tmp/bad file" "/var/vault" 1).1.ran = [] ++ [command] ∧
        TwoCommands command "/tmp/bad file" "/var/vault") ↔
      '\'' ∉ "/tmp/bad file".toList ∧ '\'' ∉ "/var/vault".toList :=
  quarantine_commands_iff (by decide +kernel)

/-- A path with quotes and a newline starts a third program. -/
theorem quarantine_commands_injected :
    ((EnforcementExecutor.new false).quarantineFile ⟨fun _ => .ok (0, "", ""), []⟩
        "/tmp/x' '/tmp/y'\nrm -rf '/srv" "/vault" 1).1.ran =
      ["mkdir -p '/vault' && mv '/tmp/x' '/tmp/y'\nrm -rf '/srv' '/vault/'"] ∧
      (Shell.tokens
          "mkdir -p '/vault' && mv '/tmp/x' '/tmp/y'\nrm -rf '/srv' '/vault/'".toList).map
          (·.map Token.unmark) =
        some (["mkdir", "-p", "/vault"].map (fun word => marked false word.toList) ++
          .operator "&&".toList ::
            ["mv", "/tmp/x", "/tmp/y"].map (fun word => marked false word.toList) ++
          .operator "\n".toList ::
            ["rm", "-rf", "/srv", "/vault/"].map (fun word => marked false word.toList)) ∧
      ¬ TwoCommands "mkdir -p '/vault' && mv '/tmp/x' '/tmp/y'\nrm -rf '/srv' '/vault/'"
        "/tmp/x' '/tmp/y'\nrm -rf '/srv" "/vault" := by
  have htokens : (Shell.tokens
      "mkdir -p '/vault' && mv '/tmp/x' '/tmp/y'\nrm -rf '/srv' '/vault/'".toList).map
        List.length = some 12 := by
    decide +kernel
  refine ⟨by decide +kernel, by decide +kernel, fun ⟨toks, htoks, hunmark, _⟩ => ?_⟩
  rw [htoks, Option.map_some, Option.some_inj] at htokens
  have hlength := congrArg List.length hunmark
  rw [List.length_map, htokens] at hlength
  exact absurd hlength (by decide)

end Wardex.Enforcement
