import Mathlib.Logic.Relation
import Wardex.Playbooks.Engine
import Wardex.Policy.Correctness

/-! Where the evaluator cuts a condition.  The offsets of connectives and of CONTAINS are found
in the upper-cased text, in which characters may have other lengths; they are used to slice the
text itself. -/

namespace Wardex.Playbooks

open Wardex.Lib Wardex.Policy Relation

inductive Keyword where
  | or
  | and
  | contains
deriving DecidableEq

def Keyword.text : Keyword → List Char
  | .or => " OR ".toList
  | .and => " AND ".toList
  | .contains => " CONTAINS ".toList

/-- A condition as its connectives cut it. -/
inductive Cuts where
  | predicate (text : List Char)
  | or (left right : Cuts)
  | and (left right : Cuts)
  | torn

section

variable (F : Type) [F64 F] (ops : TextOps) (vars : Variables)

/-- The keyword at which a condition is sliced, with its offset in the upper-cased text. -/
def sliceAt (condition : List Char) : Option (Keyword × Nat) :=
  match findTopLevel ops condition Keyword.or.text with
  | some pos => some (.or, pos)
  | none =>
    match findTopLevel ops condition Keyword.and.text with
    | some pos => some (.and, pos)
    | none => (findTopLevel ops condition Keyword.contains.text).map fun pos => (.contains, pos)

def cutCondition (condition : List Char) : Cuts :=
  let trimmed := trim condition
  match findTopLevel ops trimmed " OR ".toList with
  | some pos =>
    match _h : cutOut trimmed pos 4 with
    | none => .torn
    | some (left, right) => .or (cutCondition left) (cutCondition right)
  | none =>
    match findTopLevel ops trimmed " AND ".toList with
    | some pos =>
      match _h : cutOut trimmed pos 5 with
      | none => .torn
      | some (left, right) => .and (cutCondition left) (cutCondition right)
    | none => .predicate trimmed
termination_by condition.length
decreasing_by
  all_goals
    have hcut := cutOut_length_lt (by decide) _h
    have htrim : trimmed.length ≤ condition.length := trim_length_le condition
    omega

namespace Cuts

/-- The value of the parts, where a part that cannot be evaluated counts as false. -/
def value : Cuts → Bool
  | predicate text => (evaluatePredicate F ops text vars).getD false
  | or left right => left.value || right.value
  | and left right => left.value && right.value
  | torn => false

/-- The slices of every part that decides: of the right-hand side of a connective only where the
left-hand side leaves the result open. -/
def Intact : Cuts → Prop
  | predicate text => ∀ pos, findTopLevel ops text Keyword.contains.text = some pos →
      IsBoundary text pos ∧ IsBoundary text (pos + Keyword.contains.text.length)
  | or left right => left.Intact ∧ (left.value F ops vars = false → right.Intact)
  | and left right => left.Intact ∧ (left.value F ops vars = true → right.Intact)
  | torn => False

/-- `None` is a panic. -/
def run : Cuts → Option Bool
  | predicate text => evaluatePredicate F ops text vars
  | or left right => left.run.bind fun l => if l then some true else right.run
  | and left right => left.run.bind fun l => if l then right.run else some false
  | torn => none

end Cuts

/-- The recursive calls that evaluating a condition makes. -/
inductive Calls (condition : List Char) : List Char → Prop
  | orLeft {pos left right} (hpos : sliceAt ops (trim condition) = some (.or, pos))
      (hcut : cutOut (trim condition) pos 4 = some (left, right)) : Calls condition left
  | orRight {pos left right} (hpos : sliceAt ops (trim condition) = some (.or, pos))
      (hcut : cutOut (trim condition) pos 4 = some (left, right))
      (hleft : evaluateChars F ops left vars = some false) : Calls condition right
  | andLeft {pos left right} (hpos : sliceAt ops (trim condition) = some (.and, pos))
      (hcut : cutOut (trim condition) pos 5 = some (left, right)) : Calls condition left
  | andRight {pos left right} (hpos : sliceAt ops (trim condition) = some (.and, pos))
      (hcut : cutOut (trim condition) pos 5 = some (left, right))
      (hleft : evaluateChars F ops left vars = some true) : Calls condition right

/-- Evaluation returns a value; in every call that it makes, the offsets at which the condition
is sliced fall between characters of it; and the calls are on shorter and shorter texts. -/
structure EvaluatesSafely (condition : List Char) : Prop where
  returns : ∃ b, evaluateChars F ops condition vars = some b
  slices : ∀ text, ReflTransGen (Calls F ops vars) condition text →
    (∀ keyword pos, sliceAt ops (trim text) = some (keyword, pos) →
      IsBoundary (trim text) pos ∧ IsBoundary (trim text) (pos + keyword.text.length)) ∧
    ∀ pattern pos, findByte pattern (trim text) = some pos →
      IsBoundary (trim text) pos ∧ IsBoundary (trim text) (pos + utf8Length pattern)
  shorter : ∀ text inner, ReflTransGen (Calls F ops vars) condition text →
    Calls F ops vars text inner → utf8Length inner < utf8Length text

end

section

variable {F : Type} [F64 F] {ops : TextOps} {vars : Variables}

theorem evaluateChars_eq_run (condition : List Char) :
    evaluateChars F ops condition vars = (cutCondition ops condition).run F ops vars := by
  fun_induction cutCondition ops condition with
  | case1 condition trimmed pos hor hcut =>
    rw [evaluateChars]
    change findTopLevel ops (trim condition) _ = _ at hor
    simp only [hor]
    split
    · rfl
    · next hsome => cases hcut.symm.trans hsome
  | case2 condition trimmed pos hor left right hcut ihl ihr =>
    rw [evaluateChars]
    change findTopLevel ops (trim condition) _ = _ at hor
    simp only [hor]
    split
    · next hnone => cases hcut.symm.trans hnone
    · next hsome =>
      obtain ⟨rfl, rfl⟩ := Prod.mk.inj (Option.some.inj (hcut.symm.trans hsome))
      rw [ihl, ihr, Cuts.run]
  | case3 condition trimmed hor pos hand hcut =>
    rw [evaluateChars]
    change findTopLevel ops (trim condition) _ = _ at hor hand
    simp only [hor, hand]
    split
    · rfl
    · next hsome => cases hcut.symm.trans hsome
  | case4 condition trimmed hor pos hand left right hcut ihl ihr =>
    rw [evaluateChars]
    change findTopLevel ops (trim condition) _ = _ at hor hand
    simp only [hor, hand]
    split
    · next hnone => cases hcut.symm.trans hnone
    · next hsome =>
      obtain ⟨rfl, rfl⟩ := Prod.mk.inj (Option.some.inj (hcut.symm.trans hsome))
      rw [ihl, ihr, Cuts.run]
  | case5 condition trimmed hor hand =>
    rw [evaluateChars]
    change findTopLevel ops (trim condition) _ = _ at hor hand
    simp only [hor, hand]
    rfl

/-- A predicate panics at no other place than the slice at CONTAINS. -/
theorem evaluatePredicate_isSome (text : List Char) :
    (evaluatePredicate F ops text vars).isSome ↔
      (Cuts.predicate text).Intact F ops vars := by
  rw [evaluatePredicate, tryCompare, Cuts.Intact]
  change _ ↔ ∀ pos, findByte (upper ops " CONTAINS ".toList) (upper ops text) = some pos → _
  cases findByte (upper ops " CONTAINS ".toList) (upper ops text) with
  | none =>
    simp only [reduceCtorEq, false_implies, implies_true, iff_true]
    split <;> rfl
  | some pos =>
    have hcut : (cutOut text pos " CONTAINS ".toList.length).isSome ↔ _ := isSome_cutOut
    simp only [Option.some.injEq, forall_eq']
    change _ ↔ IsBoundary text pos ∧ IsBoundary text (pos + " CONTAINS ".toList.length)
    rw [← hcut]
    cases cutOut text pos " CONTAINS ".toList.length <;> simp

/-- The parts have a result exactly if their slices are intact, and it is their value. -/
theorem Cuts.run_eq_some {cuts : Cuts} {b : Bool} :
    cuts.run F ops vars = some b ↔ cuts.Intact F ops vars ∧ cuts.value F ops vars = b := by
  induction cuts generalizing b with
  | predicate text =>
    rw [← evaluatePredicate_isSome, Cuts.run, Cuts.value]
    cases evaluatePredicate F ops text vars <;> simp
  | torn => simp [Cuts.run, Cuts.Intact]
  | or left right ihl ihr =>
    rw [Cuts.run, Cuts.Intact, Cuts.value, Option.bind_eq_some_iff]
    constructor
    · rintro ⟨l, hl, hr⟩
      obtain ⟨hintact, hvalue⟩ := ihl.mp hl
      cases l with
      | true => exact ⟨⟨hintact, by simp [hvalue]⟩, by simpa [hvalue] using hr⟩
      | false =>
        obtain ⟨hintact', hvalue'⟩ := ihr.mp hr
        exact ⟨⟨hintact, fun _ => hintact'⟩, by rw [hvalue, hvalue', Bool.false_or]⟩
    · rintro ⟨⟨hintact, hright⟩, hvalue⟩
      refine ⟨left.value F ops vars, ihl.mpr ⟨hintact, rfl⟩, ?_⟩
      cases hl : left.value F ops vars with
      | true => simpa [hl] using hvalue
      | false => exact ihr.mpr ⟨hright hl, by simpa [hl] using hvalue⟩
  | and left right ihl ihr =>
    rw [Cuts.run, Cuts.Intact, Cuts.value, Option.bind_eq_some_iff]
    constructor
    · rintro ⟨l, hl, hr⟩
      obtain ⟨hintact, hvalue⟩ := ihl.mp hl
      cases l with
      | true =>
        obtain ⟨hintact', hvalue'⟩ := ihr.mp hr
        exact ⟨⟨hintact, fun _ => hintact'⟩, by rw [hvalue, hvalue', Bool.true_and]⟩
      | false => exact ⟨⟨hintact, by simp [hvalue]⟩, by simpa [hvalue] using hr⟩
    · rintro ⟨⟨hintact, hright⟩, hvalue⟩
      refine ⟨left.value F ops vars, ihl.mpr ⟨hintact, rfl⟩, ?_⟩
      cases hl : left.value F ops vars with
      | true => exact ihr.mpr ⟨hright hl, by simpa [hl] using hvalue⟩
      | false => simpa [hl] using hvalue

theorem evaluateChars_eq_some {condition : List Char} {b : Bool} :
    evaluateChars F ops condition vars = some b ↔
      (cutCondition ops condition).Intact F ops vars ∧
        (cutCondition ops condition).value F ops vars = b := by
  rw [evaluateChars_eq_run, Cuts.run_eq_some]

/-! ## The calls -/

omit [F64 F]

theorem sliceAt_eq_some {condition : List Char} {keyword : Keyword} {pos : Nat}
    (h : sliceAt ops condition = some (keyword, pos)) :
    findTopLevel ops condition keyword.text = some pos ∧
      (keyword ≠ .or → findTopLevel ops condition Keyword.or.text = none) ∧
      (keyword = .contains → findTopLevel ops condition Keyword.and.text = none) := by
  rw [sliceAt] at h
  cases hor : findTopLevel ops condition Keyword.or.text with
  | some p =>
    obtain ⟨rfl, rfl⟩ : .or = keyword ∧ p = pos := by simpa [hor] using h
    exact ⟨hor, fun hne => absurd rfl hne, nofun⟩
  | none =>
    cases hand : findTopLevel ops condition Keyword.and.text with
    | some p =>
      obtain ⟨rfl, rfl⟩ : .and = keyword ∧ p = pos := by simpa [hor, hand] using h
      exact ⟨hand, fun _ => rfl, nofun⟩
    | none =>
      simp only [hor, hand] at h
      obtain ⟨p, hcontains, heq⟩ := Option.map_eq_some_iff.mp h
      obtain ⟨rfl, rfl⟩ := Prod.mk.inj heq
      exact ⟨hcontains, fun _ => rfl, fun _ => rfl⟩

theorem cutCondition_or {condition left right : List Char} {pos : Nat}
    (h : sliceAt ops (trim condition) = some (.or, pos))
    (hcut : cutOut (trim condition) pos 4 = some (left, right)) :
    cutCondition ops condition = .or (cutCondition ops left) (cutCondition ops right) := by
  have hor : findTopLevel ops (trim condition) " OR ".toList = some pos := (sliceAt_eq_some h).1
  rw [cutCondition]
  simp only [hor]
  split
  · next hnone => cases hcut.symm.trans hnone
  · next hsome =>
    obtain ⟨rfl, rfl⟩ := Prod.mk.inj (Option.some.inj (hcut.symm.trans hsome))
    rfl

theorem cutCondition_and {condition left right : List Char} {pos : Nat}
    (h : sliceAt ops (trim condition) = some (.and, pos))
    (hcut : cutOut (trim condition) pos 5 = some (left, right)) :
    cutCondition ops condition = .and (cutCondition ops left) (cutCondition ops right) := by
  obtain ⟨hand, hor, -⟩ := sliceAt_eq_some h
  have hor' : findTopLevel ops (trim condition) " OR ".toList = none := hor (by decide)
  have hand' : findTopLevel ops (trim condition) " AND ".toList = some pos := hand
  rw [cutCondition]
  simp only [hor', hand']
  split
  · next hnone => cases hcut.symm.trans hnone
  · next hsome =>
    obtain ⟨rfl, rfl⟩ := Prod.mk.inj (Option.some.inj (hcut.symm.trans hsome))
    rfl

/-- A cut that fails tears the condition. -/
theorem cutCondition_torn {condition : List Char} {keyword : Keyword} {pos : Nat}
    (h : sliceAt ops (trim condition) = some (keyword, pos)) (hne : keyword ≠ .contains)
    (hcut : cutOut (trim condition) pos keyword.text.length = none) :
    cutCondition ops condition = .torn := by
  obtain ⟨hfound, hor, -⟩ := sliceAt_eq_some h
  rw [cutCondition]
  cases keyword with
  | or =>
    change findTopLevel ops (trim condition) " OR ".toList = some pos at hfound
    simp only [hfound]
    split
    · rfl
    · next hsome => cases hcut.symm.trans hsome
  | and =>
    have hor' : findTopLevel ops (trim condition) " OR ".toList = none := hor (by decide)
    change findTopLevel ops (trim condition) " AND ".toList = some pos at hfound
    simp only [hor', hfound]
    split
    · rfl
    · next hsome => cases hcut.symm.trans hsome
  | contains => exact absurd rfl hne

theorem cutCondition_predicate {condition : List Char} {pos : Nat}
    (h : sliceAt ops (trim condition) = some (.contains, pos)) :
    cutCondition ops condition = .predicate (trim condition) := by
  obtain ⟨-, hor, hand⟩ := sliceAt_eq_some h
  have hor' : findTopLevel ops (trim condition) " OR ".toList = none := hor (by decide)
  have hand' : findTopLevel ops (trim condition) " AND ".toList = none := hand rfl
  rw [cutCondition]
  simp only [hor', hand']

/-- Where the slices are intact, the offsets fall between characters. -/
theorem Cuts.Intact.slice [F64 F] {condition : List Char} {keyword : Keyword} {pos : Nat}
    (h : (cutCondition ops condition).Intact F ops vars)
    (hslice : sliceAt ops (trim condition) = some (keyword, pos)) :
    IsBoundary (trim condition) pos ∧
      IsBoundary (trim condition) (pos + keyword.text.length) := by
  by_cases hkeyword : keyword = .contains
  · subst hkeyword
    rw [cutCondition_predicate hslice] at h
    exact h pos (sliceAt_eq_some hslice).1
  · rw [← isSome_cutOut, Option.isSome_iff_ne_none]
    intro hnone
    rw [cutCondition_torn hslice hkeyword hnone] at h
    exact h

theorem Calls.intact [F64 F] {condition inner : List Char} (h : Calls F ops vars condition inner)
    (hintact : (cutCondition ops condition).Intact F ops vars) :
    (cutCondition ops inner).Intact F ops vars := by
  cases h with
  | orLeft hpos hcut =>
    rw [cutCondition_or hpos hcut] at hintact
    exact hintact.1
  | orRight hpos hcut hleft =>
    rw [cutCondition_or hpos hcut] at hintact
    exact hintact.2 (evaluateChars_eq_some.mp hleft).2
  | andLeft hpos hcut =>
    rw [cutCondition_and hpos hcut] at hintact
    exact hintact.1
  | andRight hpos hcut hleft =>
    rw [cutCondition_and hpos hcut] at hintact
    exact hintact.2 (evaluateChars_eq_some.mp hleft).2

theorem Calls.shorter [F64 F] {condition inner : List Char}
    (h : Calls F ops vars condition inner) : utf8Length inner < utf8Length condition := by
  have htrim : utf8Length (trim condition) ≤ utf8Length condition :=
    utf8Length_le_of_isInfix (trimWith_isInfix isWhiteSpace condition)
  cases h with
  | orLeft hpos hcut => exact (cutOut_utf8Length_lt (by decide) hcut).1.trans_le htrim
  | orRight hpos hcut => exact (cutOut_utf8Length_lt (by decide) hcut).2.trans_le htrim
  | andLeft hpos hcut => exact (cutOut_utf8Length_lt (by decide) hcut).1.trans_le htrim
  | andRight hpos hcut => exact (cutOut_utf8Length_lt (by decide) hcut).2.trans_le htrim

end

/-- Evaluation is safe exactly if the parts of the condition that decide are sliced between
characters. -/
theorem evaluatesSafely_iff (F : Type) [F64 F] (ops : TextOps) (condition : String)
    (vars : Variables) : EvaluatesSafely F ops vars condition.toList ↔
      (cutCondition ops condition.toList).Intact F ops vars := by
  constructor
  · rintro ⟨⟨b, hb⟩, -, -⟩
    exact (evaluateChars_eq_some.mp hb).1
  · intro hintact
    have hcalls : ∀ text, ReflTransGen (Calls F ops vars) condition.toList text →
        (cutCondition ops text).Intact F ops vars := by
      intro text h
      induction h with
      | refl => exact hintact
      | tail _ hcall ih => exact hcall.intact ih
    exact ⟨⟨_, evaluateChars_eq_some.mpr ⟨hintact, rfl⟩⟩,
      fun text h => ⟨fun keyword pos => (hcalls text h).slice, fun _ _ => isBoundary_findByte⟩,
      fun text inner _ hcall => hcall.shorter⟩

section

variable {ops : TextOps} {up : Char → Char}

theorem isBoundary_of_map {text : List Char} {pos : Nat}
    (hsize : ∀ c ∈ text, (up c).utf8Size = c.utf8Size) (h : IsBoundary (text.map up) pos) :
    IsBoundary text pos := by
  obtain ⟨_, _, htext, hpos⟩ := h
  obtain ⟨left, right, rfl, rfl, rfl⟩ := List.map_eq_append_iff.mp htext
  have hsame : utf8Length (left.map up) = utf8Length left := by
    rw [utf8Length, List.map_map]
    exact congrArg List.sum (List.map_congr_left fun c hc => hsize c (List.mem_append_left _ hc))
  exact ⟨left, right, rfl, hsame.symm.trans hpos⟩

theorem isBoundary_findTopLevel (hup : ∀ s, ops.toUppercase s = String.ofList (s.toList.map up))
    (hkeyword : ∀ keyword : Keyword, keyword.text.map up = keyword.text) {text : List Char}
    (hsize : ∀ c ∈ text, (up c).utf8Size = c.utf8Size) {keyword : Keyword} {pos : Nat}
    (h : findTopLevel ops text keyword.text = some pos) :
    IsBoundary text pos ∧ IsBoundary text (pos + keyword.text.length) := by
  have hupper : ∀ t : List Char, upper ops t = t.map up := by
    intro t
    rw [upper, hup, String.toList_ofList, String.toList_ofList]
  rw [findTopLevel, hupper, hupper, hkeyword] at h
  have hascii : utf8Length keyword.text = keyword.text.length := by cases keyword <;> decide
  obtain ⟨hbefore, hbehind⟩ := isBoundary_findByte h
  rw [hascii] at hbehind
  exact ⟨isBoundary_of_map hsize hbefore, isBoundary_of_map hsize hbehind⟩

/-- No offset is shifted where upper-casing keeps the width of every character, as it does for
ASCII. -/
theorem evaluatesSafely_of_sameSize (F : Type) [F64 F] (vars : Variables) (condition : String)
    (hup : ∀ s, ops.toUppercase s = String.ofList (s.toList.map up))
    (hkeyword : ∀ keyword : Keyword, keyword.text.map up = keyword.text)
    (hsize : ∀ c ∈ condition.toList, (up c).utf8Size = c.utf8Size) :
    EvaluatesSafely F ops vars condition.toList := by
  have hslice {text : List Char} (h : ∀ c ∈ text, (up c).utf8Size = c.utf8Size)
      (keyword : Keyword) (pos : Nat) (hfound : findTopLevel ops text keyword.text = some pos) :
      (cutOut text pos keyword.text.length).isSome :=
    isSome_cutOut.mpr (isBoundary_findTopLevel hup hkeyword h hfound)
  have htrim {text : List Char} (h : ∀ c ∈ text, (up c).utf8Size = c.utf8Size) :
      ∀ c ∈ trim text, (up c).utf8Size = c.utf8Size :=
    fun c hc => h c ((trimWith_isInfix isWhiteSpace text).subset hc)
  rw [evaluatesSafely_iff]
  generalize condition.toList = text at hsize
  fun_induction cutCondition ops text with
  | case1 text trimmed pos hor hcut =>
    have hsome := hslice (htrim hsize) .or pos hor
    rw [show cutOut (trim text) pos Keyword.or.text.length = none from hcut] at hsome
    cases hsome
  | case2 text trimmed pos hor left right hcut ihl ihr =>
    obtain ⟨hleft, hright⟩ := cutOut_subset hcut
    have hleft' := ihl fun c hc => htrim hsize c (hleft hc)
    have hright' := ihr fun c hc => htrim hsize c (hright hc)
    exact ⟨hleft', fun _ => hright'⟩
  | case3 text trimmed hor pos hand hcut =>
    have hsome := hslice (htrim hsize) .and pos hand
    rw [show cutOut (trim text) pos Keyword.and.text.length = none from hcut] at hsome
    cases hsome
  | case4 text trimmed hor pos hand left right hcut ihl ihr =>
    obtain ⟨hleft, hright⟩ := cutOut_subset hcut
    have hleft' := ihl fun c hc => htrim hsize c (hleft hc)
    have hright' := ihr fun c hc => htrim hsize c (hright hc)
    exact ⟨hleft', fun _ => hright'⟩
  | case5 text trimmed hor hand =>
    exact fun pos hfound => isBoundary_findTopLevel hup hkeyword (htrim hsize) hfound

end

/-- The dotless i, of two bytes, has the upper case I, of one. -/
def dotlessText : TextOps where
  toUppercase s := String.ofList (s.toList.map fun c => if c = 'ı' then 'I' else c.toUpper)
  toLowercase s := String.ofList (s.toList.map Char.toLower)
  debug s := "\"" ++ s ++ "\""

/-- The connective stands at byte 1 of the upper-cased text, which is inside the first character
of the text. -/
theorem evaluateCondition_panics :
    evaluateCondition ℚ dotlessText "ı OR x" [] = none ∧
      ¬ EvaluatesSafely ℚ dotlessText [] "ı OR x".toList := by
  have hnone : evaluateCondition ℚ dotlessText "ı OR x" [] = none := by decide +kernel
  refine ⟨hnone, fun hsafe => ?_⟩
  obtain ⟨b, hb⟩ := hsafe.returns
  cases hnone.symm.trans hb

end Wardex.Playbooks
