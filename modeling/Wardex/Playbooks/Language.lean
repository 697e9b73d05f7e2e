import Wardex.Playbooks.Approval
import Wardex.Policy.Correctness

/-! The language of step conditions: tests joined with AND and OR, what they mean, and when the
evaluator, which searches the text for connectives and operators, gives this meaning. -/

namespace Wardex.Playbooks

open Wardex.Lib Wardex.Policy

/-! ## The grammar -/

/-- What neither a name nor a number has: white space, quotes, characters of operators. -/
def reserved (c : Char) : Bool := isWhiteSpace c || ['<', '>', '!', '=', '\'', '"'].contains c

/-- The text of a name or a number. -/
structure Lexeme where
  text : List Char
  nonempty : text ≠ []
  plain : text.any reserved = false

structure Numeral (F : Type) [F64 F] extends Lexeme where
  value : F
  parses : F64.parse (String.ofList text) = some value

inductive QuoteMark where
  | single
  | double
deriving DecidableEq

def QuoteMark.char : QuoteMark → Char
  | .single => '\''
  | .double => '"'

inductive Literal (F : Type) [F64 F] where
  | number (n : Numeral F)
  | quoted (mark : QuoteMark) (text : List Char)

inductive TestOp where
  | numeric (op : NumericOp)
  | eq
  | contains
deriving DecidableEq

def TestOp.text : TestOp → List Char
  | .numeric op => op.text
  | .eq => ['=', '=']
  | .contains => "CONTAINS".toList

/-- `name op literal`. -/
structure CondTest (F : Type) [F64 F] where
  name : Lexeme
  op : TestOp
  literal : Literal F

/-- Tests joined with AND. -/
inductive AllOf (F : Type) [F64 F] where
  | test (t : CondTest F)
  | and (t : CondTest F) (rest : AllOf F)

/-- Conjunctions joined with OR. -/
inductive AnyOf (F : Type) [F64 F] where
  | all (a : AllOf F)
  | or (a : AllOf F) (rest : AnyOf F)

section

variable {F : Type} [F64 F]

namespace Literal

def text : Literal F → List Char
  | number n => n.text
  | quoted _ text => text

def written : Literal F → List Char
  | number n => n.text
  | quoted mark text => mark.char :: (text ++ [mark.char])

def isNumber : Literal F → Bool
  | number _ => true
  | quoted _ _ => false

/-- What the evaluator takes for the literal's text. -/
def unquoted (l : Literal F) : List Char := trimMatches '"' (trimMatches '\'' l.written)

end Literal

def CondTest.written (t : CondTest F) : List Char :=
  t.name.text ++ (' ' :: (t.op.text ++ ' ' :: t.literal.written))

def AllOf.written : AllOf F → List Char
  | test t => t.written
  | and t rest => t.written ++ (" AND ".toList ++ rest.written)

def AnyOf.written : AnyOf F → List Char
  | all a => a.written
  | or a rest => a.written ++ (" OR ".toList ++ rest.written)

/-! ## The meaning -/

section

variable (ops : TextOps) (vars : Variables)

namespace CondTest

def value (t : CondTest F) : String := (vars.get (String.ofList t.name.text)).getD ""

/-- The two sides, when both read as numbers. -/
def numbers (t : CondTest F) : Option (F × F) :=
  match (vars.get (String.ofList t.name.text)).bind (F64.parse (F := F)),
    F64.parse (F := F) (String.ofList t.literal.text) with
  | some l, some r => some (l, r)
  | _, _ => none

/-- The two sides that an equality compares as numbers: a text in quotes is compared as a text. -/
def compared (t : CondTest F) : Option (F × F) :=
  if t.literal.isNumber then t.numbers vars else none

/-- Texts have no order, and two numbers are equal unless `!=` tells them apart. -/
def meaning (t : CondTest F) : Bool :=
  match t.op with
  | .contains => lower ops t.literal.text <:+: lower ops (t.value vars).toList
  | .eq =>
    match t.compared vars with
    | some (l, r) => !NumericOp.ne.eval l r
    | none => t.value vars = String.ofList t.literal.text
  | .numeric .ne =>
    match t.compared vars with
    | some (l, r) => NumericOp.ne.eval l r
    | none => t.value vars ≠ String.ofList t.literal.text
  | .numeric op =>
    match t.numbers vars with
    | some (l, r) => op.eval l r
    | none => false

end CondTest

def AllOf.eval (verdict : CondTest F → Bool) : AllOf F → Bool
  | test t => verdict t
  | and t rest => verdict t && rest.eval verdict

def AnyOf.eval (verdict : CondTest F → Bool) : AnyOf F → Bool
  | all a => a.eval verdict
  | or a rest => a.eval verdict || rest.eval verdict

def AnyOf.meaning (c : AnyOf F) : Bool := c.eval (CondTest.meaning ops vars)

/-! ## What the evaluator answers -/

/-- What is left of a test in which no operator found two numbers. -/
def fallback (cond : List Char) : Bool :=
  (tryStringEq cond vars).getD ((vars.get (String.ofList cond)).any fun v =>
    v ≠ "0" && v ≠ "false" && v ≠ "")

/-- The test is compared as it means: `==` compares texts only, and the other operators compare
numbers only, in quotes or not. -/
def CondTest.sound (t : CondTest F) : Bool :=
  match t.op with
  | .contains => true
  | .eq =>
    match t.compared vars with
    | some (l, r) => (t.value vars = String.ofList t.literal.text) == !NumericOp.ne.eval l r
    | none => true
  | .numeric op =>
    match t.numbers vars with
    | some (l, r) => op ≠ .ne || t.literal.isNumber ||
        NumericOp.ne.eval l r == (t.value vars ≠ String.ofList t.literal.text : Bool)
    | none => fallback vars t.written ==
        (op = .ne && t.value vars ≠ String.ofList t.literal.text)

def CondTest.verdict (t : CondTest F) : Bool :=
  if t.sound vars then t.meaning ops vars else !t.meaning ops vars

/-- The operator and the literal of the test are found where they are. -/
structure CondTest.AsWritten (t : CondTest F) : Prop where
  keyword : findByte (upper ops " CONTAINS ".toList) (upper ops t.written) =
    if t.op = .contains then some (utf8Length t.name.text) else none
  literal : t.literal.unquoted = t.literal.text
  operator : t.op ≠ .contains → ∀ op, t.op ≠ .numeric op →
    tryNumericOp F t.written op vars = none

def Unconnected (text : List Char) : Prop :=
  findTopLevel ops text " OR ".toList = none ∧ findTopLevel ops text " AND ".toList = none

/-- The connectives are found where the condition has them. -/
def AllOf.AsWritten : AllOf F → Prop
  | test t => Unconnected ops t.written ∧ t.AsWritten ops vars
  | and t rest =>
    findTopLevel ops (and t rest).written " OR ".toList = none ∧
      findTopLevel ops (and t rest).written " AND ".toList = some (utf8Length t.written) ∧
      (Unconnected ops t.written ∧ t.AsWritten ops vars) ∧ rest.AsWritten

def AnyOf.AsWritten : AnyOf F → Prop
  | all a => a.AsWritten ops vars
  | or a rest =>
    findTopLevel ops (or a rest).written " OR ".toList = some (utf8Length a.written) ∧
      a.AsWritten ops vars ∧ rest.AsWritten

end

/-! ## Edges of the texts -/

theorem Lexeme.bare (l : Lexeme) : Bare isWhiteSpace l.text :=
  Bare.of_forall fun c hc => Bool.eq_false_iff.mpr fun hblank =>
    List.any_eq_false.mp l.plain c hc (Bool.or_eq_true_iff.mpr (.inl hblank))

theorem Lexeme.not_mem (l : Lexeme) {c : Char} (hc : reserved c = true) : c ∉ l.text :=
  fun hmem => List.any_eq_false.mp l.plain c hmem hc

theorem Literal.bare (l : Literal F) : Bare isWhiteSpace l.written := by
  cases l with
  | number n => exact n.bare
  | quoted mark text => cases mark <;> exact bare_wrap (by decide) (by decide) text

theorem Literal.written_ne_nil (l : Literal F) : l.written ≠ [] := by
  cases l with
  | number n => exact n.nonempty
  | quoted mark text => exact List.cons_ne_nil _ _

theorem CondTest.written_eq (t : CondTest F) :
    t.written = t.name.text ++ ((' ' :: (t.op.text ++ [' '])) ++ t.literal.written) := by
  simp [CondTest.written]

theorem CondTest.written_ne_nil (t : CondTest F) : t.written ≠ [] :=
  List.append_ne_nil_of_left_ne_nil t.name.nonempty _

theorem CondTest.bare (t : CondTest F) : Bare isWhiteSpace t.written := by
  rw [t.written_eq]
  exact bare_join t.name.bare t.literal.bare t.name.nonempty t.literal.written_ne_nil _

theorem AllOf.written_ne_nil (a : AllOf F) : a.written ≠ [] := by
  cases a with
  | test t => exact t.written_ne_nil
  | and t rest => exact List.append_ne_nil_of_left_ne_nil t.written_ne_nil _

theorem AllOf.bare (a : AllOf F) : Bare isWhiteSpace a.written := by
  induction a with
  | test t => exact t.bare
  | and t rest ih => exact bare_join t.bare ih t.written_ne_nil rest.written_ne_nil _

theorem AnyOf.written_ne_nil (c : AnyOf F) : c.written ≠ [] := by
  cases c with
  | all a => exact a.written_ne_nil
  | or a rest => exact List.append_ne_nil_of_left_ne_nil a.written_ne_nil _

theorem AnyOf.bare (c : AnyOf F) : Bare isWhiteSpace c.written := by
  induction c with
  | all a => exact a.bare
  | or a rest ih => exact bare_join a.bare ih a.written_ne_nil rest.written_ne_nil _

/-! ## A test -/

section

variable {ops : TextOps} {vars : Variables}

theorem operands_eq (t : CondTest F) :
    operands (t.name.text ++ [' ']) (' ' :: t.literal.written) =
      (String.ofList t.name.text, t.literal.unquoted) := by
  have hleft : trim (t.name.text ++ [' ']) = t.name.text :=
    (trimWith_cons (p := isWhiteSpace) (c := ' ') (by decide)).symm.trans
      (trimWith_wrap (by decide) t.name.bare)
  have hright : trim (' ' :: t.literal.written) = t.literal.written :=
    (trim_blank _).trans (trimWith_eq_self t.literal.bare)
  rw [operands, hleft, hright]
  rfl

theorem splitFirst_written (t : CondTest F) {c : Char} {pat : List Char}
    (h : t.op.text = c :: pat) (hc : reserved c = true) (hblank : c ≠ ' ') :
    splitFirst t.op.text t.written = some (t.name.text ++ [' '], ' ' :: t.literal.written) := by
  have hleft : c ∉ t.name.text ++ [' '] := by
    rw [List.mem_append, List.mem_singleton]
    rintro (hmem | rfl)
    · exact t.name.not_mem hc hmem
    · exact hblank rfl
  have hwritten : t.written =
      t.name.text ++ [' '] ++ (c :: pat ++ ' ' :: t.literal.written) := by
    rw [CondTest.written, h, List.append_assoc]
    rfl
  rw [hwritten, h]
  exact splitFirst_append hleft pat _

/-- The test's own operator compares the two sides, if both are numbers. -/
theorem tryNumericOp_written {t : CondTest F} {op : NumericOp} (h : t.op = .numeric op)
    (hliteral : t.literal.unquoted = t.literal.text) :
    tryNumericOp F t.written op vars = (t.numbers vars).map fun p => op.eval p.1 p.2 := by
  have hsplit : splitFirst op.text t.written =
      some (t.name.text ++ [' '], ' ' :: t.literal.written) := by
    have htext : t.op.text = op.text := congrArg TestOp.text h
    rw [← htext]
    cases op with
    | ge => exact splitFirst_written t (c := '>') htext (by decide) (by decide)
    | le => exact splitFirst_written t (c := '<') htext (by decide) (by decide)
    | ne => exact splitFirst_written t (c := '!') htext (by decide) (by decide)
    | gt => exact splitFirst_written t (c := '>') htext (by decide) (by decide)
    | lt => exact splitFirst_written t (c := '<') htext (by decide) (by decide)
  rw [tryNumericOp, hsplit, CondTest.numbers, ← hliteral]
  simp only [operands_eq, List.head?_cons, Option.some.injEq]
  rw [if_neg fun hlonger => absurd hlonger.2 (by decide)]
  cases (vars.get (String.ofList t.name.text)).bind (F64.parse (F := F)) with
  | none => rfl
  | some l => cases F64.parse (F := F) (String.ofList t.literal.unquoted) <;> rfl

theorem tryStringEq_written {t : CondTest F} (h : t.op = .eq)
    (hliteral : t.literal.unquoted = t.literal.text) :
    tryStringEq t.written vars = some (t.value vars = String.ofList t.literal.text : Bool) := by
  have htext : t.op.text = ['=', '='] := congrArg TestOp.text h
  have hsplit := splitFirst_written t htext (by decide) (by decide)
  rw [htext] at hsplit
  rw [tryStringEq, hsplit]
  simp only [operands_eq, List.getLast?_concat, hliteral]
  rw [if_neg (by decide)]
  rfl

theorem tryCompare_written {t : CondTest F} (h : t.op = .contains)
    (hfound : findByte (upper ops " CONTAINS ".toList) (upper ops t.written) =
      some (utf8Length t.name.text))
    (hliteral : t.literal.unquoted = t.literal.text) :
    tryCompare ops t.written " CONTAINS ".toList vars =
      some (some (lower ops t.literal.text <:+: lower ops (t.value vars).toList : Bool)) := by
  have hcut : cutOut t.written (utf8Length t.name.text) " CONTAINS ".toList.length =
      some (t.name.text, t.literal.written) := by
    rw [t.written_eq, h]
    exact cutOut_append t.name.text " CONTAINS ".toList t.literal.written
  have hoperands : operands t.name.text t.literal.written =
      (String.ofList t.name.text, t.literal.text) := by
    have hleft : trim t.name.text = t.name.text := trimWith_eq_self t.name.bare
    have hright : trim t.literal.written = t.literal.written := trimWith_eq_self t.literal.bare
    rw [operands, hleft, hright, ← hliteral]
    rfl
  rw [tryCompare, hfound]
  simp only [hcut, hoperands]
  rfl

/-- No other operator finds two numbers, so that the first answer is that of the test's own. -/
theorem findSome_numericOp {f : NumericOp → Option Bool} {op : NumericOp}
    (h : ∀ op', op ≠ op' → f op' = none) :
    [NumericOp.ge, .le, .ne, .gt, .lt].findSome? f = f op := by
  cases hown : f op <;> cases op <;> simp [h, hown]

theorem if_beq (a b : Bool) : (if a == b then b else !b) = a := by
  cases a <;> cases b <;> rfl

theorem verdict_numeric {t : CondTest F} {op : NumericOp} (h : t.op = .numeric op) :
    t.verdict ops vars =
      ((t.numbers vars).map fun p => op.eval p.1 p.2).getD (fallback vars t.written) := by
  rw [CondTest.verdict, CondTest.sound, CondTest.meaning]
  simp only [h]
  cases hnumbers : t.numbers vars with
  | none =>
    have hcompared : t.compared vars = none := by
      rw [CondTest.compared, hnumbers, ite_self]
    cases op with
    | ne =>
      simp only [hcompared]
      exact if_beq (fallback vars t.written) _
    | _ => exact if_beq (fallback vars t.written) _
  | some p =>
    cases op with
    | ne =>
      cases hnumber : t.literal.isNumber with
      | true =>
        have hcompared : t.compared vars = some p := by
          rw [CondTest.compared, hnumber, hnumbers]
          rfl
        simp [hcompared]
      | false =>
        -- two numbers are compared where the text in quotes is meant
        have hcompared : t.compared vars = none := by
          rw [CondTest.compared, hnumber]
          rfl
        simp only [hcompared]
        exact if_beq (NumericOp.ne.eval p.1 p.2) _
    | _ => rfl

theorem evaluatePredicate_written {t : CondTest F} (h : t.AsWritten ops vars) :
    evaluatePredicate F ops t.written vars = some (t.verdict ops vars) := by
  have htrim : trim t.written = t.written := trimWith_eq_self t.bare
  cases hop : t.op with
  | contains =>
    have hfound := h.keyword
    rw [if_pos hop] at hfound
    rw [evaluatePredicate, tryCompare_written hop hfound h.literal, CondTest.verdict,
      CondTest.sound, CondTest.meaning]
    simp only [hop, if_true]
  | eq =>
    have hkeyword := h.keyword
    rw [if_neg (by simp [hop])] at hkeyword
    have hnone (op : NumericOp) : tryNumericOp F t.written op vars = none :=
      h.operator (by simp [hop]) op (by simp [hop])
    -- no operator in front of `==` finds numbers, so that the texts are compared
    rw [evaluatePredicate, tryCompare, hkeyword]
    simp only [hnone, List.findSome?_cons, List.findSome?_nil, Option.none_or,
      tryStringEq_written hop h.literal]
    rw [CondTest.verdict, CondTest.sound, CondTest.meaning]
    simp only [hop]
    cases t.compared vars with
    | none => simp
    | some p => exact congrArg some (if_beq _ _).symm
  | numeric op =>
    have hkeyword := h.keyword
    rw [if_neg (by simp [hop])] at hkeyword
    have hnone (op' : NumericOp) (hne : op ≠ op') : tryNumericOp F t.written op' vars = none :=
      h.operator (by simp [hop]) op' (by simpa [hop] using hne)
    -- the test's own operator compares two numbers, or the last branches answer
    rw [evaluatePredicate, tryCompare, hkeyword, verdict_numeric hop, fallback]
    simp only [findSome_numericOp hnone, tryNumericOp_written hop h.literal, htrim]
    cases t.numbers vars with
    | none =>
      cases tryStringEq t.written vars <;> rfl
    | some p => rfl

/-! ## The connectives -/

theorem evaluateChars_or {left right : List Char}
    (hbare : Bare isWhiteSpace (left ++ (" OR ".toList ++ right)))
    (h : findTopLevel ops (left ++ (" OR ".toList ++ right)) " OR ".toList =
      some (utf8Length left)) :
    evaluateChars F ops (left ++ (" OR ".toList ++ right)) vars =
      (evaluateChars F ops left vars).bind fun l =>
        if l then some true else evaluateChars F ops right vars := by
  have htrim : trim (left ++ (" OR ".toList ++ right)) = left ++ (" OR ".toList ++ right) :=
    trimWith_eq_self hbare
  have hcut : cutOut (trim (left ++ (" OR ".toList ++ right))) (utf8Length left) 4 =
      some (left, right) := by
    rw [htrim]
    exact cutOut_append left " OR ".toList right
  rw [evaluateChars]
  simp only [htrim, h]
  split
  · next hnone => cases hcut.symm.trans hnone
  · next hsome =>
    obtain ⟨rfl, rfl⟩ := Prod.mk.inj (Option.some.inj (hcut.symm.trans hsome))
    rfl

theorem evaluateChars_and {left right : List Char}
    (hbare : Bare isWhiteSpace (left ++ (" AND ".toList ++ right)))
    (hor : findTopLevel ops (left ++ (" AND ".toList ++ right)) " OR ".toList = none)
    (h : findTopLevel ops (left ++ (" AND ".toList ++ right)) " AND ".toList =
      some (utf8Length left)) :
    evaluateChars F ops (left ++ (" AND ".toList ++ right)) vars =
      (evaluateChars F ops left vars).bind fun l =>
        if l then evaluateChars F ops right vars else some false := by
  have htrim : trim (left ++ (" AND ".toList ++ right)) = left ++ (" AND ".toList ++ right) :=
    trimWith_eq_self hbare
  have hcut : cutOut (trim (left ++ (" AND ".toList ++ right))) (utf8Length left) 5 =
      some (left, right) := by
    rw [htrim]
    exact cutOut_append left " AND ".toList right
  rw [evaluateChars]
  simp only [htrim, hor, h]
  split
  · next hnone => cases hcut.symm.trans hnone
  · next hsome =>
    obtain ⟨rfl, rfl⟩ := Prod.mk.inj (Option.some.inj (hcut.symm.trans hsome))
    rfl

theorem evaluateChars_test {t : CondTest F} (hfree : Unconnected ops t.written)
    (h : t.AsWritten ops vars) :
    evaluateChars F ops t.written vars = some (t.verdict ops vars) := by
  have htrim : trim t.written = t.written := trimWith_eq_self t.bare
  rw [evaluateChars]
  simp only [htrim, hfree.1, hfree.2]
  exact evaluatePredicate_written h

theorem evaluateChars_allOf {a : AllOf F} (h : a.AsWritten ops vars) :
    evaluateChars F ops a.written vars = some (a.eval (CondTest.verdict ops vars)) := by
  induction a with
  | test t => exact evaluateChars_test h.1 h.2
  | and t rest ih =>
    -- a conjunction is searched for " OR " again on each side of its first " AND "
    obtain ⟨hor, hand, ⟨hfree, ht⟩, hrest⟩ := h
    have hleft := evaluateChars_test hfree ht
    have hright := ih hrest
    rw [AllOf.written, evaluateChars_and (AllOf.and t rest).bare hor hand, hleft, Option.bind_some,
      hright, AllOf.eval]
    cases t.verdict ops vars <;> rfl

theorem evaluateChars_anyOf {c : AnyOf F} (h : c.AsWritten ops vars) :
    evaluateChars F ops c.written vars = some (c.eval (CondTest.verdict ops vars)) := by
  induction c with
  | all a => exact evaluateChars_allOf h
  | or a rest ih =>
    obtain ⟨hor, ha, hrest⟩ := h
    have hleft := evaluateChars_allOf ha
    have hright := ih hrest
    rw [AnyOf.written, evaluateChars_or (AnyOf.or a rest).bare hor, hleft, Option.bind_some,
      hright, AnyOf.eval]
    cases a.eval (CondTest.verdict ops vars) <;> rfl

end

end

def nameTest (name : Lexeme) (op : TestOp) (text : List Char) : CondTest ℚ where
  name := name
  op := op
  literal := .quoted .single text

def statusName : Lexeme where
  text := "status".toList
  nonempty := by decide
  plain := by decide

/-- `status != 'ok'` -/
def statusNotOk : AnyOf ℚ := .all (.test (nameTest statusName (.numeric .ne) "ok".toList))

/-- `status == 'up OR down'` -/
def statusEither : AnyOf ℚ := .all (.test (nameTest statusName .eq "up OR down".toList))

def scoreName : Lexeme where
  text := "score".toList
  nonempty := by decide
  plain := by decide

def five : Numeral ℚ where
  text := "5".toList
  nonempty := by decide
  plain := by decide
  value := 5
  parses := by decide +kernel

/-- `score > 5 AND status CONTAINS 'burst'` -/
def burstCondition : AnyOf ℚ :=
  .all (.and ⟨scoreName, .numeric .gt, .number five⟩
    (.test (nameTest statusName .contains "burst".toList)))

def burstVars : Variables := [("score", "7.5"), ("status", "Auth Burst")]

end Wardex.Playbooks
