import Mathlib.Data.List.TakeWhile
import Wardex.Lib.Delimited
import Wardex.Privacy.Redaction

/-! When the standard redaction of a summary hides its addresses and home paths, and nothing
else. -/

namespace Wardex.Privacy

open Wardex.Lib Wardex.Audit

/-! ## Addresses and paths -/

/-- One to three digits. -/
def IsGroup (group : List Char) : Prop :=
  (∀ c ∈ group, c.isDigit) ∧ 1 ≤ group.length ∧ group.length ≤ 3

/-- Four groups of digits with dots between them. -/
def IsAddress (text : List Char) : Prop :=
  ∃ a b c d, IsGroup a ∧ IsGroup b ∧ IsGroup c ∧ IsGroup d ∧
    text = a ++ '.' :: (b ++ '.' :: (c ++ '.' :: d))

def HasAddress (text : List Char) : Prop := ∃ address, IsAddress address ∧ address <:+: text

/-- The text ends, or goes on with white space. -/
def EndsHere (text : List Char) : Prop := ∀ c ∈ text.head?, isWhiteSpace c

/-- From the second text to the first only addresses and home paths were replaced. -/
inductive Redacts : List Char → List Char → Prop
  | done : Redacts [] []
  | keep (c : Char) {text redacted : List Char} (h : Redacts text redacted) :
      Redacts (c :: text) (c :: redacted)
  | address {address text redacted : List Char} (haddress : IsAddress address)
      (h : Redacts text redacted) : Redacts (address ++ text) (redactedIp ++ redacted)
  | path {below text redacted : List Char} (hbelow : ∀ c ∈ below, isWhiteSpace c = false)
      (hend : EndsHere text) (h : Redacts text redacted) :
      Redacts (homePrefix ++ below ++ text) (redactedPath ++ redacted)

/-! ## Runs of digits and dots -/

/-- A run cut before its first digit that has three dots behind it. -/
def cutRun : List Char → List Char × List Char
  | [] => ([], [])
  | c :: run =>
    if c.isDigit ∧ run.count '.' = 3 then ([], c :: run)
    else (cutRun run).map (List.cons c) id

/-- The part cut off is long enough to be taken for an address. -/
def Replaced (run : List Char) : Prop := 7 ≤ (cutRun run).2.length

instance (run : List Char) : Decidable (Replaced run) := inferInstanceAs (Decidable (_ ≤ _))

def redactRun (run : List Char) : List Char :=
  if Replaced run then (cutRun run).1 ++ redactedIp else run

/-- The runs of digits and dots that stand in no home path. -/
def outerRuns : List Char → List (List Char)
  | [] => []
  | c :: rest =>
    if homePrefix <+: c :: rest then outerRuns (rest.dropWhile fun c => !isWhiteSpace c)
    else if isDigitOrDot c then
      (c :: rest).takeWhile isDigitOrDot :: outerRuns (rest.dropWhile isDigitOrDot)
    else outerRuns rest
termination_by text => text.length
decreasing_by
  · exact Nat.lt_succ_of_le (List.dropWhile_suffix _).length_le
  · exact Nat.lt_succ_of_le (List.dropWhile_suffix _).length_le
  · exact Nat.lt_succ_self _

/-- What a run must be like: if its end is taken for an address, that is one and the only one in
it; else there is none. -/
def RunHidden (run : List Char) : Prop :=
  if Replaced run then IsAddress (cutRun run).2 ∧ ¬ HasAddress (cutRun run).1
  else ¬ HasAddress run

section Runs

variable {run rest text : List Char} {c : Char}

/-- The text does not go on with a digit or a dot. -/
def RunEnds (text : List Char) : Prop := ∀ c ∈ text.head?, isDigitOrDot c = false

theorem takeWhile_run (hrun : ∀ c ∈ run, isDigitOrDot c) (hrest : RunEnds rest) :
    (run ++ rest).takeWhile isDigitOrDot = run := by
  rw [List.takeWhile_append_of_pos hrun]
  cases rest with
  | nil => simp
  | cons c rest =>
    have hc : ¬ isDigitOrDot c = true := by simp [hrest c rfl]
    rw [List.takeWhile_cons_of_neg hc, List.append_nil]

theorem dropWhile_run (hrun : ∀ c ∈ run, isDigitOrDot c) (hrest : RunEnds rest) :
    (run ++ rest).dropWhile isDigitOrDot = rest := by
  rw [List.dropWhile_append_of_pos hrun]
  cases rest with
  | nil => rfl
  | cons c rest =>
    have hc : ¬ isDigitOrDot c = true := by simp [hrest c rfl]
    rw [List.dropWhile_cons_of_neg hc]

theorem replaceIps_other (hc : c.isDigit = false) (rest : List Char) :
    regexLiteReplaceIps (c :: rest) = c :: regexLiteReplaceIps rest := by
  rw [regexLiteReplaceIps]
  simp [hc]

theorem cutRun_append (run : List Char) : (cutRun run).1 ++ (cutRun run).2 = run := by
  induction run with
  | nil => rfl
  | cons c run ih =>
    rw [cutRun]
    split_ifs
    · rfl
    · exact congrArg (List.cons c) ih

theorem redactRun_cons (h : ¬ (c.isDigit ∧ run.count '.' = 3)) :
    redactRun (c :: run) = c :: redactRun run := by
  have hcut : cutRun (c :: run) = (cutRun run).map (List.cons c) id := by rw [cutRun, if_neg h]
  have hreplaced : Replaced (c :: run) ↔ Replaced run := by rw [Replaced, Replaced, hcut]; rfl
  rw [redactRun, redactRun, hcut]
  by_cases hrun : Replaced run
  · rw [if_pos (hreplaced.mpr hrun), if_pos hrun]
    rfl
  · rw [if_neg (hreplaced.not.mpr hrun), if_neg hrun]

/-- A run is replaced from its first digit with three dots behind it, or not at all. -/
theorem replaceIps_run (hrun : ∀ c ∈ run, isDigitOrDot c) (hrest : RunEnds rest) :
    regexLiteReplaceIps (run ++ rest) = redactRun run ++ regexLiteReplaceIps rest := by
  induction run with
  | nil => rfl
  | cons c run ih =>
    have hbehind := ih fun d hd => hrun d (List.mem_cons_of_mem c hd)
    have htake : (c :: (run ++ rest)).takeWhile isDigitOrDot = c :: run := takeWhile_run hrun hrest
    rw [List.cons_append, regexLiteReplaceIps, htake]
    -- the scan restarts at every character of the run, so that the dots counted are those behind it
    by_cases hfirst : c.isDigit ∧ run.count '.' = 3
    · have hdots : (c :: run).count '.' = 3 := by
        rw [List.count_cons_of_ne (by rintro rfl; exact absurd hfirst.1 (by decide)), hfirst.2]
      have hcut : cutRun (c :: run) = ([], c :: run) := by rw [cutRun, if_pos hfirst]
      by_cases hlong : 7 ≤ (c :: run).length
      · have hreplaced : Replaced (c :: run) := by rwa [Replaced, hcut]
        rw [if_pos ⟨hfirst.1, hdots, hlong⟩, redactRun, if_pos hreplaced, hcut]
        have hdrop : (run ++ rest).drop ((c :: run).length - 1) = rest := List.drop_left
        rw [hdrop]
        rfl
      · -- the later digits have less behind them
        have hshort : ¬ Replaced run := by
          have hle := congrArg List.length (cutRun_append run)
          rw [List.length_append] at hle
          rw [List.length_cons] at hlong
          rw [Replaced]
          omega
        have hkept : ¬ Replaced (c :: run) := by rwa [Replaced, hcut]
        rw [if_neg fun h => hlong h.2.2, hbehind, redactRun, redactRun, if_neg hshort,
          if_neg hkept]
        rfl
    · have hnot : ¬ (c.isDigit ∧ (c :: run).count '.' = 3 ∧ 7 ≤ (c :: run).length) := by
        rintro ⟨hdigit, hdots, -⟩
        rw [List.count_cons_of_ne (by rintro rfl; exact absurd hdigit (by decide))] at hdots
        exact hfirst ⟨hdigit, hdots⟩
      rw [if_neg hnot, hbehind, redactRun_cons hfirst]
      rfl

theorem exists_run (hc : isDigitOrDot c) (rest : List Char) : ∃ run behind,
    c :: rest = run ++ behind ∧ run ≠ [] ∧ (∀ d ∈ run, isDigitOrDot d) ∧ RunEnds behind ∧
      behind.length ≤ rest.length := by
  refine ⟨(c :: rest).takeWhile isDigitOrDot, (c :: rest).dropWhile isDigitOrDot,
    List.takeWhile_append_dropWhile.symm, ?_, fun d hd => List.mem_takeWhile_imp hd,
    fun d hd => ?_, ?_⟩
  · rw [List.takeWhile_cons_of_pos hc]
    exact List.cons_ne_nil _ _
  · have hnot := List.head?_dropWhile_not isDigitOrDot (c :: rest)
    rw [Option.mem_def.mp hd] at hnot
    simpa using hnot
  · rw [List.dropWhile_cons_of_pos hc]
    exact (List.dropWhile_suffix _).length_le

/-- Text is runs and other characters. -/
theorem run_induction {p : List Char → Prop} (nil : p [])
    (run : ∀ run rest, run ≠ [] → (∀ c ∈ run, isDigitOrDot c) → RunEnds rest → p rest →
      p (run ++ rest))
    (other : ∀ c rest, isDigitOrDot c = false → p rest → p (c :: rest)) (text : List Char) :
    p text := by
  induction hn : text.length using Nat.strong_induction_on generalizing text with
  | _ n ih =>
    subst hn
    cases text with
    | nil => exact nil
    | cons c rest =>
      cases hc : isDigitOrDot c with
      | false => exact other c rest hc (ih _ (Nat.lt_succ_self _) rest rfl)
      | true =>
        obtain ⟨front, behind, hsplit, hne, hfront, hbehind, hle⟩ := exists_run hc rest
        rw [hsplit]
        exact run front behind hne hfront hbehind (ih _ (Nat.lt_succ_of_le hle) behind rfl)

/-- Text is home paths, runs and other characters. -/
theorem text_induction {p : List Char → Prop} (nil : p [])
    (path : ∀ below rest, (∀ c ∈ below, isWhiteSpace c = false) → EndsHere rest → p rest →
      p (homePrefix ++ below ++ rest))
    (run : ∀ run rest, run ≠ [] → (∀ c ∈ run, isDigitOrDot c) → RunEnds rest → p rest →
      p (run ++ rest))
    (other : ∀ c rest, isDigitOrDot c = false → ¬ homePrefix <+: c :: rest → p rest →
      p (c :: rest)) (text : List Char) : p text := by
  induction hn : text.length using Nat.strong_induction_on generalizing text with
  | _ n ih =>
    subst hn
    cases text with
    | nil => exact nil
    | cons c rest =>
      by_cases hhome : homePrefix <+: c :: rest
      · obtain ⟨after, hafter⟩ := hhome
        have hsplit := List.takeWhile_append_dropWhile (p := fun c => !isWhiteSpace c) (l := after)
        have hle := (List.dropWhile_suffix (fun c => !isWhiteSpace c) (l := after)).length_le
        have hlen := congrArg List.length hafter
        have hsix : homePrefix.length = 6 := rfl
        rw [List.length_append, hsix] at hlen
        rw [← hafter, ← hsplit, ← List.append_assoc]
        refine path _ _ (fun d hd => ?_) (fun d hd => ?_) (ih _ (by omega) _ rfl)
        · simpa using List.mem_takeWhile_imp hd
        · have hnot := List.head?_dropWhile_not (fun c => !isWhiteSpace c) after
          rw [Option.mem_def.mp hd] at hnot
          simpa using hnot
      · cases hc : isDigitOrDot c with
        | false => exact other c rest hc hhome (ih _ (Nat.lt_succ_self _) rest rfl)
        | true =>
          obtain ⟨front, behind, hsplit, hne, hfront, hbehind, hle⟩ := exists_run hc rest
          rw [hsplit]
          exact run front behind hne hfront hbehind (ih _ (Nat.lt_succ_of_le hle) behind rfl)

end Runs

/-! ## The scan for addresses -/

section Scan

variable {rest text : List Char} {c : Char}

theorem isDigitOrDot_of_isWhiteSpace (h : isWhiteSpace c) : isDigitOrDot c = false := by
  have halpha := not_isAlphanum_of_isWhiteSpace h
  rw [Char.isAlphanum, Bool.or_eq_false_iff] at halpha
  have hdot : c ≠ '.' := by
    rintro rfl
    cases h
  rw [isDigitOrDot, halpha.2, Bool.false_or]
  exact beq_false_of_ne hdot

theorem EndsHere.runEnds (h : EndsHere text) : RunEnds text := fun c hc =>
  isDigitOrDot_of_isWhiteSpace (h c hc)

theorem isDigit_eq_false (h : isDigitOrDot c = false) : c.isDigit = false :=
  (Bool.or_eq_false_iff.mp h).1

theorem replaceIps_append (text : List Char) (hrest : RunEnds rest) :
    regexLiteReplaceIps (text ++ rest) = regexLiteReplaceIps text ++ regexLiteReplaceIps rest := by
  induction text using run_induction with
  | nil => rw [regexLiteReplaceIps, List.nil_append, List.nil_append]
  | run run behind hne hrun hbehind ih =>
    have hends : RunEnds (behind ++ rest) := by
      cases behind with
      | nil => exact hrest
      | cons d behind => exact hbehind
    rw [List.append_assoc, replaceIps_run hrun hends, replaceIps_run hrun hbehind, ih,
      List.append_assoc]
  | other c behind hc ih =>
    rw [List.cons_append, replaceIps_other (isDigit_eq_false hc), ih,
      replaceIps_other (isDigit_eq_false hc)]
    rfl

/-- What a run is replaced by is made of its characters and those of the marker. -/
theorem mem_redactRun {run : List Char} (h : c ∈ redactRun run) : c ∈ run ∨ c ∈ redactedIp := by
  rw [redactRun] at h
  split_ifs at h
  · rcases List.mem_append.mp h with h | h
    · exact .inl (cutRun_append run ▸ List.mem_append_left _ h)
    · exact .inr h
  · exact .inl h

theorem mem_replaceIps (h : c ∈ regexLiteReplaceIps text) : c ∈ text ∨ c ∈ redactedIp := by
  induction text using run_induction with
  | nil =>
    rw [regexLiteReplaceIps] at h
    exact .inl h
  | run run rest hne hrun hrest ih =>
    rw [replaceIps_run hrun hrest] at h
    rcases List.mem_append.mp h with h | h
    · exact (mem_redactRun h).imp_left (List.mem_append_left _)
    · exact (ih h).imp_left (List.mem_append_right _)
  | other d rest hd ih =>
    rw [replaceIps_other (isDigit_eq_false hd)] at h
    rcases List.mem_cons.mp h with rfl | h
    · exact .inl List.mem_cons_self
    · exact (ih h).imp_left (List.mem_cons_of_mem _)

theorem EndsHere.replaceIps (h : EndsHere text) : EndsHere (regexLiteReplaceIps text) := by
  cases text with
  | nil =>
    rw [regexLiteReplaceIps]
    exact h
  | cons c rest =>
    have hc : isWhiteSpace c := h c rfl
    rw [replaceIps_other (isDigit_eq_false (isDigitOrDot_of_isWhiteSpace hc))]
    exact h

theorem of_mem_homePrefix {c : Char} (hc : c ∈ homePrefix) :
    isDigitOrDot c = false ∧ c ≠ '[' ∧ isWhiteSpace c = false := by
  have hall : homePrefix.all (fun c => !isDigitOrDot c && c != '[' && !isWhiteSpace c) := rfl
  simpa [and_assoc] using List.all_eq_true.mp hall c hc

theorem of_mem_redactedIp {c : Char} (hc : c ∈ redactedIp) :
    isDigitOrDot c = false ∧ isWhiteSpace c = false := by
  have hall : redactedIp.all (fun c => !isDigitOrDot c && !isWhiteSpace c) := rfl
  simpa using List.all_eq_true.mp hall c hc

theorem of_mem_redactedPath {c : Char} (hc : c ∈ redactedPath) : isDigitOrDot c = false := by
  have hall : redactedPath.all (fun c => !isDigitOrDot c) := rfl
  simpa using List.all_eq_true.mp hall c hc

/-- A path ends where the white space begins. -/
theorem dropWhile_path {path : List Char} (hpath : ∀ c ∈ path, isWhiteSpace c = false)
    (hrest : EndsHere rest) : (path ++ rest).dropWhile (fun c => !isWhiteSpace c) = rest := by
  rw [List.dropWhile_append_of_pos fun c hc => by simp [hpath c hc]]
  cases rest with
  | nil => rfl
  | cons c rest =>
    have hc : isWhiteSpace c := hrest c rfl
    exact List.dropWhile_cons_of_neg (by simp [hc])

/-- A path stays a path. -/
theorem replaceIps_path {below : List Char} (hbelow : ∀ c ∈ below, isWhiteSpace c = false)
    (hrest : EndsHere rest) : ∃ below', (∀ c ∈ below', isWhiteSpace c = false) ∧
      regexLiteReplaceIps (homePrefix ++ below ++ rest) =
        homePrefix ++ below' ++ regexLiteReplaceIps rest := by
  have hhome : regexLiteReplaceIps (homePrefix ++ below) =
      homePrefix ++ regexLiteReplaceIps below := by
    have hletters : ∀ letters : List Char, (∀ d ∈ letters, d.isDigit = false) →
        regexLiteReplaceIps (letters ++ below) = letters ++ regexLiteReplaceIps below := by
      intro letters hletters
      induction letters with
      | nil => rfl
      | cons d letters ih =>
        rw [List.cons_append, replaceIps_other (hletters d List.mem_cons_self),
          ih fun e he => hletters e (List.mem_cons_of_mem d he)]
        rfl
    exact hletters homePrefix fun d hd => isDigit_eq_false (of_mem_homePrefix hd).1
  refine ⟨regexLiteReplaceIps below, fun c hc => ?_, ?_⟩
  · rcases mem_replaceIps hc with h | h
    · exact hbelow c h
    · exact (of_mem_redactedIp h).2
  · rw [replaceIps_append _ hrest.runEnds, hhome]

/-- No text of other characters comes about by the scan. -/
theorem prefix_of_replaceIps {pat : List Char} (hpat : ∀ c ∈ pat, isDigitOrDot c = false ∧ c ≠ '[')
    (h : pat <+: regexLiteReplaceIps text) : pat <+: text := by
  induction pat generalizing text with
  | nil => exact List.nil_prefix
  | cons d pat ih =>
    obtain ⟨hd, hbracket⟩ := hpat d List.mem_cons_self
    cases text with
    | nil =>
      rw [regexLiteReplaceIps] at h
      exact h
    | cons c rest =>
      by_cases hc : c.isDigit
      · rw [regexLiteReplaceIps] at h
        split_ifs at h
        · exact absurd (List.cons_prefix_cons.mp h).1 hbracket
        · obtain ⟨rfl, -⟩ := List.cons_prefix_cons.mp h
          rw [isDigit_eq_false hd] at hc
          cases hc
      · rw [replaceIps_other (Bool.eq_false_iff.mpr hc)] at h
        obtain ⟨rfl, hrest⟩ := List.cons_prefix_cons.mp h
        exact List.cons_prefix_cons.mpr
          ⟨rfl, ih (fun e he => hpat e (List.mem_cons_of_mem _ he)) hrest⟩

end Scan

/-! ## The loop over the paths -/

section Paths

variable {s rest redacted : List Char} {c : Char}

/-- From some fuel on the loop comes to an end with that text. -/
def EndsWith (s redacted : List Char) : Prop := ∃ n, ∀ fuel ≥ n, redactPaths fuel s = some redacted

theorem splitFirst_eq_some {pat text before after : List Char}
    (h : splitFirst pat text = some (before, after)) : text = before ++ pat ++ after := by
  induction text generalizing before with
  | nil =>
    rw [splitFirst] at h
    split_ifs at h with hpat
    obtain ⟨rfl, rfl⟩ := Prod.mk.inj (Option.some.inj h)
    simp [hpat]
  | cons c text ih =>
    rw [splitFirst] at h
    split_ifs at h with hpre
    · obtain ⟨rfl, rfl⟩ := Prod.mk.inj (Option.some.inj h)
      obtain ⟨more, hmore⟩ := hpre
      rw [← hmore, List.drop_left, List.nil_append]
    · obtain ⟨⟨front, back⟩, hsplit, hpair⟩ := Option.map_eq_some_iff.mp h
      obtain ⟨rfl, rfl⟩ := Prod.mk.inj hpair
      rw [ih hsplit]
      rfl

theorem splitFirst_eq_none {pat text : List Char} (h : splitFirst pat text = none) :
    ¬ pat <:+: text := by
  induction text with
  | nil =>
    rw [splitFirst] at h
    split_ifs at h with hpat
    exact fun hinfix => hpat (List.infix_nil.mp hinfix)
  | cons c text ih =>
    rw [splitFirst] at h
    split_ifs at h with hpre
    rw [List.infix_cons_iff, not_or]
    exact ⟨hpre, ih (Option.map_eq_none_iff.mp h)⟩

/-- A character that begins no path stays. -/
theorem redactPaths_cons (h : ¬ homePrefix <+: c :: s) (fuel : Nat) :
    redactPaths fuel (c :: s) = (redactPaths fuel s).map (List.cons c) := by
  induction fuel generalizing s with
  | zero => rfl
  | succ fuel ih =>
    rw [redactPaths, redactPaths, splitFirst, if_neg h]
    cases hsplit : splitFirst homePrefix s with
    | none => rfl
    | some parts =>
      obtain ⟨before, after⟩ := parts
      obtain rfl := splitFirst_eq_some hsplit
      dsimp only [Option.map_some]
      rw [List.cons_append, List.cons_append, ih]
      -- a path that begins here would end before the marker
      intro hhome
      have hmarker : redactedPath = '[' :: "REDACTED_PATH]".toList := rfl
      rw [hmarker, List.append_assoc, List.cons_append, ← List.cons_append] at hhome
      have hshort : homePrefix <+: c :: before := prefix_of_not_mem (by decide) hhome
      refine h (hshort.trans ?_)
      rw [List.append_assoc]
      exact List.prefix_append (c :: before) _

/-- So does a text without slashes. -/
theorem EndsWith.append {front : List Char} (hfront : '/' ∉ front) (h : EndsWith rest redacted) :
    EndsWith (front ++ rest) (front ++ redacted) := by
  obtain ⟨n, hn⟩ := h
  refine ⟨n, fun fuel hfuel => ?_⟩
  have hpass : redactPaths fuel (front ++ rest) = (redactPaths fuel rest).map (front ++ ·) := by
    induction front with
    | nil => simp
    | cons d front ih =>
      obtain ⟨hd, hfront⟩ := not_or.mp (List.mem_cons.not.mp hfront)
      have hhome : ¬ homePrefix <+: d :: (front ++ rest) := fun h =>
        hd (List.cons_prefix_cons.mp h).1
      rw [List.cons_append, redactPaths_cons hhome, ih hfront, Option.map_map]
      rfl
  rw [hpass, hn fuel hfuel]
  rfl

theorem EndsWith.cons (h : ¬ homePrefix <+: c :: s) (hs : EndsWith s redacted) :
    EndsWith (c :: s) (c :: redacted) := by
  obtain ⟨n, hn⟩ := hs
  refine ⟨n, fun fuel hfuel => ?_⟩
  rw [redactPaths_cons h, hn fuel hfuel]
  rfl

theorem endsWith_nil : EndsWith [] [] := by
  refine ⟨1, fun fuel hfuel => ?_⟩
  obtain ⟨fuel, rfl⟩ := Nat.exists_eq_add_of_le' hfuel
  rfl

theorem EndsWith.path {below : List Char} (hbelow : ∀ c ∈ below, isWhiteSpace c = false)
    (hrest : EndsHere rest) (h : EndsWith rest redacted) :
    EndsWith (homePrefix ++ below ++ rest) (redactedPath ++ redacted) := by
  have hmarker : '/' ∉ redactedPath := by decide
  obtain ⟨n, hn⟩ := h.append hmarker
  refine ⟨n + 1, fun fuel hfuel => ?_⟩
  obtain ⟨fuel, rfl⟩ := Nat.exists_eq_add_of_le' ((Nat.le_add_left 1 n).trans hfuel)
  have hsplit : splitFirst homePrefix (homePrefix ++ below ++ rest) = some ([], below ++ rest) := by
    have hpre : homePrefix <+: homePrefix ++ (below ++ rest) := List.prefix_append _ _
    have hhome : homePrefix = '/' :: "home/".toList := rfl
    rw [List.append_assoc]
    conv at hpre => rhs; rw [hhome, List.cons_append]
    conv_lhs => arg 2; rw [hhome, List.cons_append]
    rw [splitFirst, if_pos hpre]
    rfl
  have hdrop : (homePrefix ++ (below ++ rest)).dropWhile (fun c => !isWhiteSpace c) = rest := by
    rw [← List.append_assoc]
    refine dropWhile_path (fun c hc => ?_) hrest
    exact (List.mem_append.mp hc).elim (fun hc => (of_mem_homePrefix hc).2.2) (hbelow c)
  rw [redactPaths, hsplit]
  dsimp only
  rw [hdrop, List.nil_append]
  exact hn fuel (by omega)

/-- When the loop has come to an end there is no path left. -/
theorem EndsWith.not_infix (h : EndsWith s redacted) : ¬ homePrefix <:+: redacted := by
  obtain ⟨n, hn⟩ := h
  have hsome := hn n (Nat.le_refl n)
  clear hn
  induction n generalizing s with
  | zero => cases hsome
  | succ n ih =>
    rw [redactPaths] at hsome
    cases hsplit : splitFirst homePrefix s with
    | none =>
      rw [hsplit] at hsome
      obtain rfl := Option.some.inj hsome
      exact splitFirst_eq_none hsplit
    | some parts =>
      rw [hsplit] at hsome
      exact ih hsome

end Paths

/-! ## The redacted text, piece by piece -/

/-- What becomes of a summary. -/
inductive Standard : List Char → List Char → Prop
  | nil : Standard [] []
  | path {below rest redacted : List Char} (hbelow : ∀ c ∈ below, isWhiteSpace c = false)
      (hend : EndsHere rest) (h : Standard rest redacted) :
      Standard (homePrefix ++ below ++ rest) (redactedPath ++ redacted)
  | run {run rest redacted : List Char} (hne : run ≠ []) (hrun : ∀ c ∈ run, isDigitOrDot c)
      (hend : RunEnds rest) (h : Standard rest redacted) :
      Standard (run ++ rest) (redactRun run ++ redacted)
  | other {c : Char} {rest redacted : List Char} (hc : isDigitOrDot c = false)
      (hhome : ¬ homePrefix <+: c :: rest) (h : Standard rest redacted) :
      Standard (c :: rest) (c :: redacted)

theorem exists_standard (text : List Char) :
    ∃ redacted, Standard text redacted ∧ EndsWith (regexLiteReplaceIps text) redacted := by
  induction text using text_induction with
  | nil =>
    refine ⟨[], .nil, ?_⟩
    rw [regexLiteReplaceIps]
    exact endsWith_nil
  | path below rest hbelow hend ih =>
    obtain ⟨redacted, hstandard, hends⟩ := ih
    obtain ⟨below', hbelow', hscan⟩ := replaceIps_path hbelow hend
    exact ⟨_, .path hbelow hend hstandard, hscan ▸ hends.path hbelow' hend.replaceIps⟩
  | run run rest hne hrun hend ih =>
    obtain ⟨redacted, hstandard, hends⟩ := ih
    refine ⟨_, .run hne hrun hend hstandard, ?_⟩
    rw [replaceIps_run hrun hend]
    -- neither the run nor the marker has a slash for a path to begin with
    refine hends.append fun hslash => ?_
    rcases mem_redactRun hslash with h | h
    · exact absurd (hrun _ h) (by decide)
    · exact absurd h (by decide)
  | other c rest hc hhome ih =>
    obtain ⟨redacted, hstandard, hends⟩ := ih
    refine ⟨_, .other hc hhome hstandard, ?_⟩
    have hscan := replaceIps_other (isDigit_eq_false hc) rest
    rw [hscan]
    refine hends.cons fun h => hhome ?_
    rw [← hscan] at h
    refine prefix_of_replaceIps (fun c hc => ?_) h
    exact ⟨(of_mem_homePrefix hc).1, (of_mem_homePrefix hc).2.1⟩

section Pieces

variable {text rest redacted : List Char} {c : Char}

theorem Standard.runEnds (h : Standard text redacted) (hends : RunEnds text) :
    RunEnds redacted := by
  cases h with
  | nil => exact hends
  | path =>
    intro d hd
    obtain rfl := Option.some.inj hd
    rfl
  | run hne hrun _ _ =>
    obtain ⟨d, more, rfl⟩ := List.exists_cons_of_ne_nil hne
    have hd := hrun d List.mem_cons_self
    rw [hends d rfl] at hd
    cases hd
  | other hc _ _ =>
    intro d hd
    obtain rfl := Option.some.inj hd
    exact hc

theorem outerRuns_path {below : List Char} (hbelow : ∀ c ∈ below, isWhiteSpace c = false)
    (hend : EndsHere rest) : outerRuns (homePrefix ++ below ++ rest) = outerRuns rest := by
  have hhome : homePrefix = '/' :: "home/".toList := rfl
  have hpre : homePrefix <+: '/' :: ("home/".toList ++ below ++ rest) := by
    rw [List.append_assoc]
    exact List.prefix_append homePrefix (below ++ rest)
  have hdrop : ("home/".toList ++ below ++ rest).dropWhile (fun c => !isWhiteSpace c) = rest := by
    refine dropWhile_path (fun c hc => ?_) hend
    refine (List.mem_append.mp hc).elim (fun hc => ?_) (hbelow c)
    exact (of_mem_homePrefix (hhome ▸ List.mem_cons_of_mem '/' hc)).2.2
  conv_lhs => rw [hhome]
  rw [List.cons_append, List.cons_append, outerRuns, if_pos hpre, hdrop]

theorem outerRuns_run {run : List Char} (hne : run ≠ []) (hrun : ∀ c ∈ run, isDigitOrDot c)
    (hend : RunEnds rest) : outerRuns (run ++ rest) = run :: outerRuns rest := by
  obtain ⟨d, more, rfl⟩ := List.exists_cons_of_ne_nil hne
  have hd := hrun d List.mem_cons_self
  have hhome : ¬ homePrefix <+: d :: (more ++ rest) := by
    intro h
    obtain ⟨rfl, -⟩ := List.cons_prefix_cons.mp h
    cases hd
  have htake : (d :: (more ++ rest)).takeWhile isDigitOrDot = d :: more := takeWhile_run hrun hend
  rw [List.cons_append, outerRuns, if_neg hhome, if_pos hd, htake,
    dropWhile_run (fun c hc => hrun c (List.mem_cons_of_mem d hc)) hend]

theorem outerRuns_other (hc : isDigitOrDot c = false) (hhome : ¬ homePrefix <+: c :: rest) :
    outerRuns (c :: rest) = outerRuns rest := by
  rw [outerRuns, if_neg hhome, if_neg (by simp [hc])]

end Pieces

/-! ## What is hidden -/

section Hidden

variable {address text rest redacted : List Char} {c : Char}

theorem IsAddress.isDigitOrDot (h : IsAddress address) : ∀ c ∈ address, isDigitOrDot c := by
  obtain ⟨w, x, y, z, hw, hx, hy, hz, rfl⟩ := h
  have hgroup : ∀ {group}, IsGroup group → ∀ c ∈ group, Privacy.isDigitOrDot c := by
    intro group hgroup c hc
    rw [Privacy.isDigitOrDot, hgroup.1 c hc, Bool.true_or]
  intro c hc
  simp only [List.mem_append, List.mem_cons] at hc
  rcases hc with h | rfl | h | rfl | h | rfl | h
  · exact hgroup hw c h
  · rfl
  · exact hgroup hx c h
  · rfl
  · exact hgroup hy c h
  · rfl
  · exact hgroup hz c h

theorem IsAddress.count_dots (h : IsAddress address) : address.count '.' = 3 := by
  obtain ⟨w, x, y, z, hw, hx, hy, hz, rfl⟩ := h
  have hgroup : ∀ {group}, IsGroup group → group.count '.' = 0 := by
    intro group hgroup
    refine List.count_eq_zero.mpr fun hdot => ?_
    exact absurd (hgroup.1 '.' hdot) (by decide)
  simp only [List.count_append, List.count_cons_self, hgroup hw, hgroup hx, hgroup hy, hgroup hz]

theorem IsAddress.head_isDigit (h : IsAddress address) :
    ∃ d more, address = d :: more ∧ d.isDigit := by
  obtain ⟨w, x, y, z, hw, -, -, -, rfl⟩ := h
  obtain ⟨d, more, rfl⟩ := List.exists_cons_of_length_pos hw.2.1
  exact ⟨d, _, rfl, hw.1 d List.mem_cons_self⟩

theorem hasAddress_append_cons (hc : isDigitOrDot c = false) (front text : List Char) :
    HasAddress (front ++ c :: text) ↔ HasAddress front ∨ HasAddress text := by
  constructor
  · rintro ⟨address, haddress, hinfix⟩
    have hnot : c ∉ address := fun hmem => by
      have := haddress.isDigitOrDot c hmem
      rw [hc] at this
      cases this
    rcases infix_of_not_mem hnot hinfix with h | h
    · exact .inl ⟨address, haddress, h⟩
    · exact .inr ⟨address, haddress, h⟩
  · rintro (⟨address, haddress, h⟩ | ⟨address, haddress, h⟩)
    · exact ⟨address, haddress, h.trans (List.prefix_append _ _).isInfix⟩
    · exact ⟨address, haddress,
        h.trans ((List.suffix_cons c text).trans (List.suffix_append front _)).isInfix⟩

theorem not_hasAddress_nil : ¬ HasAddress [] := by
  rintro ⟨address, haddress, hinfix⟩
  obtain ⟨d, more, rfl, -⟩ := haddress.head_isDigit
  exact absurd (List.infix_nil.mp hinfix) (List.cons_ne_nil d more)

theorem hasAddress_cons (hc : isDigitOrDot c = false) (text : List Char) :
    HasAddress (c :: text) ↔ HasAddress text := by
  rw [← List.nil_append (c :: text), hasAddress_append_cons hc, or_iff_right not_hasAddress_nil]

/-- A marker hides what stands on its two sides from each other. -/
theorem hasAddress_append_other {letters : List Char}
    (hletters : ∀ c ∈ letters, isDigitOrDot c = false) (text : List Char) :
    HasAddress (letters ++ text) ↔ HasAddress text := by
  induction letters with
  | nil => rfl
  | cons d letters ih =>
    rw [List.cons_append, hasAddress_cons (hletters d List.mem_cons_self),
      ih fun c hc => hletters c (List.mem_cons_of_mem d hc)]

theorem hasAddress_append_ends (front : List Char) (hends : RunEnds text) :
    HasAddress (front ++ text) ↔ HasAddress front ∨ HasAddress text := by
  cases text with
  | nil => rw [List.append_nil, or_iff_left not_hasAddress_nil]
  | cons c text =>
    rw [hasAddress_append_cons (hends c rfl), hasAddress_cons (hends c rfl)]

/-- The part of a run that is kept. -/
def keptRun (run : List Char) : List Char := if Replaced run then (cutRun run).1 else run

theorem hasAddress_redactRun (run : List Char) (hends : RunEnds text) :
    HasAddress (redactRun run ++ text) ↔ HasAddress (keptRun run) ∨ HasAddress text := by
  rw [redactRun, keptRun]
  split_ifs
  · have hmarker : redactedIp = '[' :: "REDACTED-IP]".toList := rfl
    rw [List.append_assoc, hmarker, List.cons_append, hasAddress_append_cons rfl,
      hasAddress_append_other fun c hc =>
        (of_mem_redactedIp (hmarker ▸ List.mem_cons_of_mem '[' hc)).1]
  · exact hasAddress_append_ends run hends

theorem Standard.hasAddress_iff (h : Standard text redacted) :
    HasAddress redacted ↔ ∃ run ∈ outerRuns text, HasAddress (keptRun run) := by
  induction h with
  | nil => simp [outerRuns, not_hasAddress_nil]
  | path hbelow hend _ ih =>
    rw [hasAddress_append_other fun _ => of_mem_redactedPath, outerRuns_path hbelow hend, ih]
  | run hne hrun hend hstandard ih =>
    rw [hasAddress_redactRun _ (hstandard.runEnds hend), outerRuns_run hne hrun hend, ih,
      List.exists_mem_cons_iff]
  | other hc hhome _ ih => rw [hasAddress_cons hc, outerRuns_other hc hhome, ih]

end Hidden

/-! ## What is kept -/

section Kept

variable {front address text rest redacted : List Char} {c : Char}

/-- The markers begin with a bracket, and what they stand for does not. -/
theorem redacts_cons_iff : Redacts (c :: text) (c :: redacted) ↔ Redacts text redacted := by
  refine ⟨fun h => ?_, .keep c⟩
  generalize hs : c :: text = s at h
  generalize hr : c :: redacted = r at h
  cases h with
  | done => cases hs
  | keep d h =>
    obtain ⟨-, rfl⟩ := List.cons.inj hs
    obtain ⟨-, rfl⟩ := List.cons.inj hr
    exact h
  | address haddress h =>
    obtain ⟨d, more, rfl, hd⟩ := haddress.head_isDigit
    obtain ⟨rfl, -⟩ := List.cons.inj hs
    obtain ⟨rfl, -⟩ := List.cons.inj hr
    cases hd
  | path hbelow hend h =>
    obtain ⟨rfl, -⟩ := List.cons.inj hs
    exact absurd (List.cons.inj hr).1 (by decide)

theorem redacts_append_iff :
    Redacts (front ++ text) (front ++ redacted) ↔ Redacts text redacted := by
  induction front with
  | nil => rfl
  | cons d front ih => rw [List.cons_append, List.cons_append, redacts_cons_iff, ih]

/-- An address that a run and what is behind it begin with lies within the run. -/
theorem IsAddress.exists_append (haddress : IsAddress address) (hrest : RunEnds rest)
    (h : front ++ rest = address ++ text) :
    ∃ tail, front = address ++ tail ∧ text = tail ++ rest := by
  rcases List.append_eq_append_iff.mp h with ⟨tail, htail, hbehind⟩ | hwithin
  · cases tail with
    | nil => exact ⟨[], by rw [htail, List.append_nil, List.append_nil], hbehind.symm⟩
    | cons e tail =>
      have he := haddress.isDigitOrDot e (by simp [htail])
      rw [hrest e (by rw [hbehind]; rfl)] at he
      cases he
  · exact hwithin

/-- Digits that were not kept have an address about them. -/
theorem not_redacts_of_dotless {digits : List Char} (hne : digits ≠ [])
    (hdigits : ∀ c ∈ digits, isDigitOrDot c) (hdots : digits.count '.' = 0) (hrest : RunEnds rest)
    (hred : RunEnds redacted) : ¬ Redacts (digits ++ rest) redacted := by
  intro h
  obtain ⟨d, more, rfl⟩ := List.exists_cons_of_ne_nil hne
  have hd := hdigits d List.mem_cons_self
  generalize hs : d :: more ++ rest = s at h
  cases h with
  | done => cases hs
  | keep e h =>
    obtain ⟨rfl, -⟩ := List.cons.inj hs
    rw [hred d rfl] at hd
    cases hd
  | address haddress h =>
    obtain ⟨tail, htail, -⟩ := haddress.exists_append hrest hs
    rw [htail, List.count_append, haddress.count_dots] at hdots
    omega
  | path hbelow hend h =>
    obtain ⟨rfl, -⟩ := List.cons.inj hs
    cases hd

/-- The end of a run may be replaced exactly if it is an address. -/
theorem redacts_address_iff {back : List Char} (hne : back ≠ [])
    (hback : ∀ c ∈ back, isDigitOrDot c) (hdots : back.count '.' = 3) (hrest : RunEnds rest)
    (hred : RunEnds redacted) :
    Redacts (back ++ rest) (redactedIp ++ redacted) ↔ IsAddress back ∧ Redacts rest redacted := by
  refine ⟨fun h => ?_, fun h => .address h.1 h.2⟩
  obtain ⟨d, more, rfl⟩ := List.exists_cons_of_ne_nil hne
  have hd := hback d List.mem_cons_self
  generalize hs : d :: more ++ rest = s at h
  generalize hr : redactedIp ++ redacted = r at h
  cases h with
  | done => cases hs
  | keep e h =>
    obtain ⟨rfl, -⟩ := List.cons.inj hs
    obtain ⟨rfl, -⟩ := List.cons.inj hr
    cases hd
  | address haddress h =>
    obtain rfl := List.append_cancel_left hr
    obtain ⟨tail, htail, htext⟩ := haddress.exists_append hrest hs
    rw [htail, List.count_append, haddress.count_dots] at hdots
    have htail' : ∀ c ∈ tail, isDigitOrDot c := fun c hc =>
      hback c (htail ▸ List.mem_append_right _ hc)
    -- what is left of the run behind the address has no dots, and would have to be redacted
    by_cases hnil : tail = []
    · subst hnil
      rw [List.append_nil] at htail
      rw [htext, List.nil_append] at h
      exact ⟨htail ▸ haddress, h⟩
    · rw [htext] at h
      exact absurd h (not_redacts_of_dotless hnil htail' (by omega) hrest hred)
  | path hbelow hend h =>
    obtain ⟨rfl, -⟩ := List.cons.inj hs
    cases hd

theorem split_at_end {a b s t : List Char} (ha : ∀ c ∈ a, isWhiteSpace c = false)
    (hb : ∀ c ∈ b, isWhiteSpace c = false) (hs : EndsHere s) (ht : EndsHere t)
    (h : a ++ s = b ++ t) : a = b ∧ s = t := by
  have hrest : s = t := by rw [← dropWhile_path ha hs, h, dropWhile_path hb ht]
  rw [hrest] at h
  exact ⟨List.append_cancel_right h, hrest⟩

theorem redacts_path_iff {below : List Char} (hbelow : ∀ c ∈ below, isWhiteSpace c = false)
    (hend : EndsHere rest) :
    Redacts (homePrefix ++ below ++ rest) (redactedPath ++ redacted) ↔ Redacts rest redacted := by
  refine ⟨fun h => ?_, .path hbelow hend⟩
  generalize hs : homePrefix ++ below ++ rest = s at h
  generalize hr : redactedPath ++ redacted = r at h
  cases h with
  | done => cases hs
  | keep e h =>
    obtain ⟨rfl, -⟩ := List.cons.inj hs
    exact absurd (List.cons.inj hr).1 (by decide)
  | address haddress h =>
    obtain ⟨d, more, rfl, hd⟩ := haddress.head_isDigit
    obtain ⟨rfl, -⟩ := List.cons.inj hs
    cases hd
  | path hbelow' hend' h =>
    obtain rfl := List.append_cancel_left hr
    rw [List.append_assoc, List.append_assoc] at hs
    obtain ⟨-, rfl⟩ := split_at_end hbelow hbelow' hend hend' (List.append_cancel_left hs)
    exact h

theorem cutRun_snd (run : List Char) :
    (cutRun run).2 = [] ∨ (cutRun run).2.count '.' = 3 := by
  induction run with
  | nil => exact .inl rfl
  | cons c run ih =>
    rw [cutRun]
    split_ifs with h
    · right
      rw [List.count_cons_of_ne (by rintro rfl; exact absurd h.1 (by decide)), h.2]
    · exact ih

theorem redacts_run_iff {run : List Char} (hrun : ∀ c ∈ run, isDigitOrDot c) (hrest : RunEnds rest)
    (hred : RunEnds redacted) : Redacts (run ++ rest) (redactRun run ++ redacted) ↔
      (Replaced run → IsAddress (cutRun run).2) ∧ Redacts rest redacted := by
  rw [redactRun]
  split_ifs with hreplaced
  · have hne : (cutRun run).2 ≠ [] := by
      intro hnil
      rw [Replaced, hnil] at hreplaced
      cases hreplaced
    have hback : ∀ c ∈ (cutRun run).2, isDigitOrDot c := fun c hc =>
      hrun c (cutRun_append run ▸ List.mem_append_right _ hc)
    have hsplit : run ++ rest = (cutRun run).1 ++ ((cutRun run).2 ++ rest) := by
      rw [← List.append_assoc, cutRun_append]
    rw [hsplit, List.append_assoc, redacts_append_iff,
      redacts_address_iff hne hback ((cutRun_snd run).resolve_left hne) hrest hred]
    simp [hreplaced]
  · rw [redacts_append_iff]
    simp [hreplaced]

theorem Standard.redacts_iff (h : Standard text redacted) :
    Redacts text redacted ↔ ∀ run ∈ outerRuns text, Replaced run → IsAddress (cutRun run).2 := by
  induction h with
  | nil => simp [outerRuns, Redacts.done]
  | path hbelow hend _ ih => rw [redacts_path_iff hbelow hend, outerRuns_path hbelow hend, ih]
  | run hne hrun hend hstandard ih =>
    rw [redacts_run_iff hrun hend (hstandard.runEnds hend), outerRuns_run hne hrun hend, ih,
      List.forall_mem_cons]
  | other hc hhome _ ih => rw [redacts_cons_iff, outerRuns_other hc hhome, ih]

end Kept

/-! ## Bundles -/

section Bundles

/-- Addresses and home paths are hidden, and everything else is kept. -/
structure Hides (text redacted : List Char) : Prop where
  noAddress : ¬ HasAddress redacted
  noPath : ¬ homePrefix <:+: redacted
  kept : Redacts text redacted

theorem Standard.hides_iff {text redacted : List Char} (h : Standard text redacted)
    (hpath : ¬ homePrefix <:+: redacted) :
    Hides text redacted ↔ ∀ run ∈ outerRuns text, RunHidden run := by
  have hrun : ∀ run, RunHidden run ↔
      ¬ HasAddress (keptRun run) ∧ (Replaced run → IsAddress (cutRun run).2) := by
    intro run
    rw [RunHidden, keptRun]
    split_ifs with hreplaced
    · simp [hreplaced, and_comm]
    · simp [hreplaced]
  simp only [hrun]
  constructor
  · intro hhides run hmem
    exact ⟨fun haddress => hhides.noAddress (h.hasAddress_iff.mpr ⟨run, hmem, haddress⟩),
      h.redacts_iff.mp hhides.kept run hmem⟩
  · intro hruns
    refine ⟨fun haddress => ?_, hpath, h.redacts_iff.mpr fun run hmem => (hruns run hmem).2⟩
    obtain ⟨run, hmem, hkept⟩ := h.hasAddress_iff.mp haddress
    exact (hruns run hmem).1 hkept

/-- The record's summary was redacted as it should be, and has no path left. -/
def RedactedAs (record : Nat × String × String × String) (redacted : RedactedRecord) : Prop :=
  Standard record.2.2.1.toList redacted.summaryRedacted.toList ∧
    ¬ homePrefix <:+: redacted.summaryRedacted.toList

theorem exists_redactRecord (record : Nat × String × String × String) : ∃ redacted,
    RedactedAs record redacted ∧
      ∃ n, ∀ fuel ≥ n, redactRecord fuel .standard record = some redacted := by
  obtain ⟨sequence, category, summary, hash⟩ := record
  obtain ⟨text, hstandard, hends⟩ := exists_standard summary.toList
  refine ⟨⟨sequence, category, String.ofList text, hash⟩, ⟨?_, ?_⟩, ?_⟩
  · rwa [String.toList_ofList]
  · rw [String.toList_ofList]
    exact hends.not_infix
  · obtain ⟨n, hn⟩ := hends
    refine ⟨n, fun fuel hfuel => ?_⟩
    have hsummary : redactSummary fuel .standard category summary = some (String.ofList text) :=
      congrArg (Option.map String.ofList) (hn fuel hfuel)
    exact congrArg (Option.map _) hsummary

theorem exists_redactRecords (records : List (Nat × String × String × String)) : ∃ redacted,
    List.Forall₂ RedactedAs records redacted ∧
      ∃ n, ∀ fuel ≥ n, records.mapM (redactRecord fuel .standard) = some redacted := by
  induction records with
  | nil => exact ⟨[], .nil, 0, fun _ _ => rfl⟩
  | cons record records ih =>
    obtain ⟨first, hfirst, n, hn⟩ := exists_redactRecord record
    obtain ⟨redacted, hrest, m, hm⟩ := ih
    refine ⟨first :: redacted, .cons hfirst hrest, max n m, fun fuel hfuel => ?_⟩
    rw [List.mapM_cons, hn fuel (by omega), hm fuel (by omega)]
    rfl

variable (sha256 : List UInt8 → List UInt8) (caseId : String)

/-- The redaction comes to an end, with every record redacted as it should be. -/
theorem exists_redactForensicBundle (records : List (Nat × String × String × String)) : ∃ bundle,
    List.Forall₂ RedactedAs records bundle.redactedRecords ∧
      ∃ n, ∀ fuel ≥ n,
        redactForensicBundle sha256 fuel caseId records .standard = some bundle := by
  obtain ⟨redacted, hredacted, n, hn⟩ := exists_redactRecords records
  refine ⟨bundleOf sha256 caseId .standard redacted, hredacted, n, fun fuel hfuel => ?_⟩
  rw [redactForensicBundle, hn fuel hfuel, Option.map_some]

theorem hides_all_iff {records : List (Nat × String × String × String)}
    {redacted : List RedactedRecord} (h : List.Forall₂ RedactedAs records redacted) :
    List.Forall₂ (fun record redacted =>
        Hides record.2.2.1.toList redacted.summaryRedacted.toList) records redacted ↔
      ∀ record ∈ records, ∀ run ∈ outerRuns record.2.2.1.toList, RunHidden run := by
  induction h with
  | nil => simp
  | cons hfirst _ ih =>
    rw [List.forall₂_cons, List.forall_mem_cons, hfirst.1.hides_iff hfirst.2, ih]

/-- The standard redaction always ends, and it hides what it should and keeps the rest exactly if
every run of digits and dots outside home paths is either free of addresses and kept, or has its
only address at its end. -/
theorem redactForensicBundle_hides_iff (records : List (Nat × String × String × String)) :
    ∃ bundle, (∃ n, ∀ fuel ≥ n,
        redactForensicBundle sha256 fuel caseId records .standard = some bundle) ∧
      (List.Forall₂ (fun record redacted =>
          Hides record.2.2.1.toList redacted.summaryRedacted.toList)
          records bundle.redactedRecords ↔
        ∀ record ∈ records, ∀ run ∈ outerRuns record.2.2.1.toList, RunHidden run) := by
  obtain ⟨bundle, hredacted, hends⟩ := exists_redactForensicBundle sha256 caseId records
  exact ⟨bundle, hends, hides_all_iff hredacted⟩

/-- A record whose summary ends with an address and a full stop. -/
def fullStopRecord : Nat × String × String × String := (1, "detect", "1.2.3.4.", "aabb")

theorem isAddress_small : IsAddress "1.2.3.4".toList := by
  refine ⟨['1'], ['2'], ['3'], ['4'], ?_, ?_, ?_, ?_, rfl⟩ <;> simp [IsGroup]

/-- Behind an address with a full stop there are four dots, and it is kept. -/
theorem fullStop_kept : ∃ bundle n,
    (∀ fuel ≥ n, redactForensicBundle (fun _ => List.replicate 32 0) fuel "case-001"
      [fullStopRecord] .standard = some bundle) ∧
    ∃ redacted ∈ bundle.redactedRecords, HasAddress redacted.summaryRedacted.toList := by
  obtain ⟨bundle, hredacted, n, hn⟩ :=
    exists_redactForensicBundle (fun _ => List.replicate 32 0) "case-001" [fullStopRecord]
  refine ⟨bundle, n, hn, ?_⟩
  obtain ⟨redacted, rest, hfirst, -, hrecords⟩ := List.forall₂_cons_left_iff.mp hredacted
  refine ⟨redacted, hrecords ▸ List.mem_cons_self, hfirst.1.hasAddress_iff.mpr ?_⟩
  have hruns : outerRuns "1.2.3.4.".toList = ["1.2.3.4.".toList] := by
    have hends : RunEnds [] := fun c hc => nomatch hc
    have hrun : ∀ c ∈ "1.2.3.4.".toList, isDigitOrDot c := List.all_eq_true.mp rfl
    have h := outerRuns_run (List.cons_ne_nil '1' ".2.3.4.".toList) hrun hends
    rwa [List.append_nil, outerRuns] at h
  have hkept : keptRun "1.2.3.4.".toList = "1.2.3.4.".toList := by decide
  refine ⟨"1.2.3.4.".toList, by rw [fullStopRecord, hruns]; exact List.mem_singleton_self _, ?_⟩
  rw [hkept]
  exact ⟨_, isAddress_small, [], ['.'], rfl⟩

end Bundles

end Wardex.Privacy
