import Wardex.Sigma.Rule

/-! Conditions as expressions, the words they are written in, and their truth; what the evaluator
makes of the words, and for which conditions that is their truth. -/

namespace Wardex.Sigma

open Wardex.Lib Wardex.Policy

def keywords : List String := ["and", "or", "not"]

/-- What a selection or a filter can be called in a condition. -/
structure Name where
  text : String
  isWord : IsWord text.toList
  notKeyword : text ∉ keywords
deriving DecidableEq

/-- `not` binds tightest. -/
inductive Operand where
  | name (n : Name)
  | not (o : Operand)

/-- Operands joined by `and`. -/
inductive Conjunction where
  | one (o : Operand)
  | and (o : Operand) (c : Conjunction)

/-- Conjunctions joined by `or`. -/
inductive Condition where
  | one (c : Conjunction)
  | or (c : Conjunction) (e : Condition)

namespace Operand

def tokens : Operand → List String
  | name n => [n.text]
  | not o => "not" :: o.tokens

def eval (v : Name → Bool) : Operand → Bool
  | name n => v n
  | not o => !o.eval v

def subject : Operand → Name
  | name n => n
  | not o => o.subject

/-- Under an odd number of `not`s. -/
def negated : Operand → Bool
  | name _ => false
  | not o => !o.negated

end Operand

namespace Conjunction

def tokens : Conjunction → List String
  | one o => o.tokens
  | and o c => o.tokens ++ "and" :: c.tokens

def eval (v : Name → Bool) : Conjunction → Bool
  | one o => o.eval v
  | and o c => o.eval v && c.eval v

def operands : Conjunction → List Operand
  | one o => [o]
  | and o c => o :: c.operands

end Conjunction

namespace Condition

def tokens : Condition → List String
  | one c => c.tokens
  | or c e => c.tokens ++ "or" :: e.tokens

def eval (v : Name → Bool) : Condition → Bool
  | one c => c.eval v
  | or c e => c.eval v || e.eval v

def operands : Condition → List Operand
  | one c => c.operands
  | or c e => c.operands ++ e.operands

def names (e : Condition) : List Name := e.operands.map Operand.subject

variable (isFilter : Name → Bool)

/-- One selection, a conjunction in which every filter is negated, or what is equivalent to
the disjunction of the selections that occur in it. -/
def Supported : Condition → Prop
  | one (.one o) => ∃ n, o = .name n ∧ isFilter n = false
  | one (.and o c) => (∀ p ∈ (Conjunction.and o c).operands, isFilter p.subject → p.negated) ∨
      ∀ v, (Conjunction.and o c).eval v = false
  | or c e => ∀ v, (or c e).eval v = (or c e).names.any fun n => !isFilter n && v n

end Condition

/-- The names of the condition are those of selections or of filters, and no keyword is. -/
structure Detection.Defines (d : Detection) (isFilter : Name → Bool) (e : Condition) : Prop where
  filters : ∀ n ∈ e.names, isFilter n = true →
    d.filters n.text ≠ none ∧ d.selections n.text = none
  selections : ∀ n ∈ e.names, isFilter n = false →
    d.selections n.text ≠ none ∧ d.filters n.text = none
  keywords : ∀ k ∈ keywords, d.selections k = none ∧ d.filters k = none

/-- Whether the matchers that a name stands for match. -/
def Detection.valuation (F : Type) [F64 F] (toLowercase : String → String) (d : Detection)
    (fields : Table String) (n : Name) : Bool :=
  ((d.filters n.text <|> d.selections n.text).bind
    (evaluateSelection F toLowercase fields)).isSome

/-! ## The evaluator -/

namespace Operand

variable (isFilter v : Name → Bool)

theorem eval_eq (o : Operand) : o.eval v = (v o.subject ^^ o.negated) := by
  induction o with
  | name n => exact (Bool.xor_false _).symm
  | not o ih => rw [eval, ih, subject, negated, Bool.xor_not]

/-- A name that is not negated must be a selection. -/
def evaluated (o : Operand) : Bool :=
  if o.negated then !v o.subject else !isFilter o.subject && v o.subject

end Operand

/-- The value by the shape of the condition. -/
def Condition.evaluated (isFilter v : Name → Bool) : Condition → Bool
  | one (.one (.name n)) => !isFilter n && v n
  | one (.one (.not _)) => false
  | one (.and o c) => (Conjunction.and o c).operands.all (Operand.evaluated isFilter v)
  | or c e => (or c e).names.any fun n => !isFilter n && v n

/-! ### The words of a condition -/

theorem not_mem_keywords_tokens {k : String} (hk : k ∈ keywords) (n : Name) : k ≠ n.text := by
  rintro rfl
  exact n.notKeyword hk

namespace Operand

theorem mem_tokens {t : String} {o : Operand} (h : t ∈ o.tokens) :
    t = "not" ∨ t = o.subject.text := by
  induction o with
  | name n => exact Or.inr (List.mem_singleton.mp h)
  | not o ih =>
    rcases List.mem_cons.mp h with h | h
    · exact Or.inl h
    · exact ih h

theorem subject_mem_tokens (o : Operand) : o.subject.text ∈ o.tokens := by
  induction o with
  | name n => exact List.mem_singleton_self _
  | not o ih => exact List.mem_cons_of_mem _ ih

theorem tokens_ne_nil (o : Operand) : o.tokens ≠ [] := by
  cases o <;> exact List.cons_ne_nil _ _

theorem keyword_not_mem_tokens (o : Operand) {k : String} (hk : k ∈ keywords) (hne : k ≠ "not") :
    k ∉ o.tokens := by
  intro h
  rcases mem_tokens h with h | h
  · exact hne h
  · exact not_mem_keywords_tokens hk _ h

end Operand

namespace Conjunction

theorem or_not_mem_tokens (c : Conjunction) : "or" ∉ c.tokens := by
  induction c with
  | one o => exact o.keyword_not_mem_tokens (by decide) (by decide)
  | and o c ih =>
    intro h
    rcases List.mem_append.mp h with h | h
    · exact o.keyword_not_mem_tokens (by decide) (by decide) h
    · rcases List.mem_cons.mp h with h | h
      · exact absurd h (by decide)
      · exact ih h

theorem mem_tokens {t : String} {c : Conjunction} (h : t ∈ c.tokens) :
    t ∈ keywords ∨ ∃ p ∈ c.operands, t = p.subject.text := by
  induction c with
  | one o =>
    rcases Operand.mem_tokens h with rfl | rfl
    · exact Or.inl (by decide)
    · exact Or.inr ⟨o, List.mem_singleton_self _, rfl⟩
  | and o c ih =>
    rcases List.mem_append.mp h with h | h
    · rcases Operand.mem_tokens h with rfl | rfl
      · exact Or.inl (by decide)
      · exact Or.inr ⟨o, List.mem_cons_self, rfl⟩
    · rcases List.mem_cons.mp h with rfl | h
      · exact Or.inl (by decide)
      · rcases ih h with hk | ⟨p, hp, rfl⟩
        · exact Or.inl hk
        · exact Or.inr ⟨p, List.mem_cons_of_mem _ hp, rfl⟩

theorem subject_mem_tokens {p : Operand} {c : Conjunction} (h : p ∈ c.operands) :
    p.subject.text ∈ c.tokens := by
  induction c with
  | one o =>
    rw [List.mem_singleton.mp h]
    exact o.subject_mem_tokens
  | and o c ih =>
    rcases List.mem_cons.mp h with rfl | h
    · exact List.mem_append_left _ p.subject_mem_tokens
    · exact List.mem_append_right _ (List.mem_cons_of_mem _ (ih h))

end Conjunction

namespace Condition

theorem mem_tokens {t : String} {e : Condition} (h : t ∈ e.tokens) :
    t ∈ keywords ∨ ∃ n ∈ e.names, t = n.text := by
  induction e with
  | one c =>
    rcases Conjunction.mem_tokens h with hk | ⟨p, hp, rfl⟩
    · exact Or.inl hk
    · exact Or.inr ⟨_, List.mem_map_of_mem hp, rfl⟩
  | or c e ih =>
    rw [names, operands, List.map_append]
    rcases List.mem_append.mp h with h | h
    · rcases Conjunction.mem_tokens h with hk | ⟨p, hp, rfl⟩
      · exact Or.inl hk
      · exact Or.inr ⟨_, List.mem_append_left _ (List.mem_map_of_mem hp), rfl⟩
    · rcases List.mem_cons.mp h with rfl | h
      · exact Or.inl (by decide)
      · rcases ih h with hk | ⟨n, hn, rfl⟩
        · exact Or.inl hk
        · exact Or.inr ⟨n, List.mem_append_right _ hn, rfl⟩

theorem name_mem_tokens {n : Name} {e : Condition} (h : n ∈ e.names) : n.text ∈ e.tokens := by
  induction e with
  | one c =>
    obtain ⟨p, hp, rfl⟩ := List.mem_map.mp h
    exact Conjunction.subject_mem_tokens hp
  | or c e ih =>
    rw [names, operands, List.map_append] at h
    rcases List.mem_append.mp h with h | h
    · obtain ⟨p, hp, rfl⟩ := List.mem_map.mp h
      exact List.mem_append_left _ (Conjunction.subject_mem_tokens hp)
    · exact List.mem_append_right _ (List.mem_cons_of_mem _ (ih h))

end Condition

section

variable (F : Type) [F64 F] (toLowercase : String → String) (fields : Table String)
  {d : Detection} {isFilter : Name → Bool} {e : Condition}

theorem select_isSome (hd : d.Defines isFilter e) {n : Name} (hn : n ∈ e.names) :
    (d.select F toLowercase fields n.text).isSome =
      (!isFilter n && d.valuation F toLowercase fields n) := by
  cases hf : isFilter n with
  | true => simp [Detection.select, (hd.filters n hn hf).2]
  | false => simp [Detection.select, Detection.valuation, (hd.selections n hn hf).2]

theorem select_keyword (hd : d.Defines isFilter e) {k : String} (hk : k ∈ keywords) :
    d.select F toLowercase fields k = none := by
  rw [Detection.select, (hd.keywords k hk).1]
  rfl

/-- A name behind a `not`, with the operand's other `not`s gone. -/
theorem evaluateAnd_not_name (hd : d.Defines isFilter e) {n : Name} (hn : n ∈ e.names)
    (rest : List String) :
    (d.evaluateAnd F toLowercase fields ("not" :: n.text :: rest)).isSome =
      (!d.valuation F toLowercase fields n &&
        (d.evaluateAnd F toLowercase fields rest).isSome) := by
  rw [Detection.evaluateAnd, if_neg (by decide), if_pos rfl]
  cases hf : isFilter n with
  | true =>
    obtain ⟨hfilter, hsel⟩ := hd.filters n hn hf
    obtain ⟨matchers, hmatchers⟩ := Option.ne_none_iff_exists'.mp hfilter
    have hv : d.valuation F toLowercase fields n =
        (evaluateSelection F toLowercase fields matchers).isSome := by
      simp [Detection.valuation, hmatchers]
    rw [hv]
    simp only [hmatchers]
    cases (evaluateSelection F toLowercase fields matchers).isSome <;> simp
  | false =>
    have hv : d.valuation F toLowercase fields n =
        (d.select F toLowercase fields n.text).isSome := by
      rw [select_isSome F toLowercase fields hd hn, hf]
      rfl
    rw [hv]
    simp only [(hd.selections n hn hf).2]
    cases (d.select F toLowercase fields n.text).isSome <;> simp

theorem evaluateAnd_operand (hd : d.Defines isFilter e) (rest : List String) :
    (o : Operand) → o.subject ∈ e.names →
    (d.evaluateAnd F toLowercase fields (o.tokens ++ rest)).isSome =
      (o.evaluated isFilter (d.valuation F toLowercase fields) &&
        (d.evaluateAnd F toLowercase fields rest).isSome)
  | .name n, hn => by
    have hand : n.text ≠ "and" := (not_mem_keywords_tokens (by decide) n).symm
    have hnot : n.text ≠ "not" := (not_mem_keywords_tokens (by decide) n).symm
    change (d.evaluateAnd F toLowercase fields (n.text :: rest)).isSome =
      ((!isFilter n && d.valuation F toLowercase fields n) &&
        (d.evaluateAnd F toLowercase fields rest).isSome)
    rw [← select_isSome F toLowercase fields hd (n := n) hn, Detection.evaluateAnd.eq_def]
    dsimp only
    rw [if_neg hand, if_neg hnot]
    cases d.select F toLowercase fields n.text <;> simp
  | .not (.name n), hn => evaluateAnd_not_name F toLowercase fields hd hn rest
  | .not (.not o), hn => by
    -- the first of two `not`s takes the second for a name, which stands for nothing
    have hkeyword := hd.keywords "not" (by decide)
    have hskip : (d.evaluateAnd F toLowercase fields ("not" :: "not" :: (o.tokens ++ rest))) =
        d.evaluateAnd F toLowercase fields (o.tokens ++ rest) := by
      rw [Detection.evaluateAnd, if_neg (by decide), if_pos rfl]
      simp only [hkeyword.2, select_keyword F toLowercase fields hd (by decide : "not" ∈ keywords)]
      rfl
    have hevaluated : (Operand.not (.not o)).evaluated isFilter
        (d.valuation F toLowercase fields) =
          o.evaluated isFilter (d.valuation F toLowercase fields) := by
      simp [Operand.evaluated, Operand.negated, Operand.subject]
    rw [hevaluated, ← evaluateAnd_operand hd rest o hn, ← hskip]
    rfl

theorem evaluateAnd_tokens (hd : d.Defines isFilter e) {c : Conjunction}
    (hc : ∀ p ∈ c.operands, p.subject ∈ e.names) :
    (d.evaluateAnd F toLowercase fields c.tokens).isSome =
      c.operands.all (Operand.evaluated isFilter (d.valuation F toLowercase fields)) := by
  induction c with
  | one o =>
    have ho := evaluateAnd_operand F toLowercase fields hd [] o (hc o (List.mem_singleton_self o))
    rw [List.append_nil] at ho
    rw [Conjunction.tokens, ho, Conjunction.operands, List.all_cons]
    rfl
  | and o c ih =>
    have hskip : d.evaluateAnd F toLowercase fields ("and" :: c.tokens) =
        d.evaluateAnd F toLowercase fields c.tokens := by
      rw [Detection.evaluateAnd.eq_def]
      exact if_pos rfl
    rw [Conjunction.tokens, evaluateAnd_operand F toLowercase fields hd _ o
      (hc o List.mem_cons_self), hskip, ih fun p hp => hc p (List.mem_cons_of_mem o hp),
      Conjunction.operands, List.all_cons]

theorem evaluateOr_tokens (hd : d.Defines isFilter e) :
    (d.evaluateOr F toLowercase fields e.tokens).isSome =
      e.names.any fun n => !isFilter n && d.valuation F toLowercase fields n := by
  have hhits : (d.evaluateOr F toLowercase fields e.tokens).isSome ↔
      ∃ part ∈ e.tokens, part ≠ "or" ∧ (d.select F toLowercase fields part).isSome := by
    unfold Detection.evaluateOr
    dsimp only
    split_ifs with hempty
    · rw [List.filterMap_eq_nil_iff] at hempty
      refine iff_of_false Bool.false_ne_true ?_
      rintro ⟨part, hpart, hne, hsome⟩
      rw [hempty part (List.mem_filter.mpr ⟨hpart, decide_eq_true hne⟩)] at hsome
      exact Bool.false_ne_true hsome
    · refine iff_of_true rfl ?_
      obtain ⟨hit, hhit⟩ := List.exists_mem_of_ne_nil _ hempty
      obtain ⟨part, hpart, hselect⟩ := List.mem_filterMap.mp hhit
      obtain ⟨hmem, hne⟩ := List.mem_filter.mp hpart
      exact ⟨part, hmem, of_decide_eq_true hne, hselect ▸ rfl⟩
  rw [Bool.eq_iff_iff, hhits, List.any_eq_true]
  constructor
  · rintro ⟨part, hpart, -, hsome⟩
    rcases Condition.mem_tokens hpart with hk | ⟨n, hn, rfl⟩
    · rw [select_keyword F toLowercase fields hd hk] at hsome
      exact absurd hsome Bool.false_ne_true
    · exact ⟨n, hn, (select_isSome F toLowercase fields hd hn).symm.trans hsome⟩
  · rintro ⟨n, hn, hsome⟩
    exact ⟨n.text, Condition.name_mem_tokens hn, (not_mem_keywords_tokens (by decide) n).symm,
      (select_isSome F toLowercase fields hd hn).trans hsome⟩

/-- Two words or more are looked through for keywords. -/
theorem evaluateRule_words {rule : SigmaRule} {first second : String} {rest : List String}
    (h : splitWhitespace rule.detection.condition = first :: second :: rest) :
    evaluateRule F toLowercase rule fields = .ok
      (if "or" ∈ first :: second :: rest then
        rule.detection.evaluateOr F toLowercase fields (first :: second :: rest)
      else if "and" ∈ first :: second :: rest then
        rule.detection.evaluateAnd F toLowercase fields (first :: second :: rest)
      else rule.detection.select F toLowercase fields first) := by
  unfold evaluateRule
  dsimp only
  rw [h]
  dsimp only
  split_ifs <;> rfl

theorem exists_words {l l' : List String} {t : String} (h : l ≠ []) :
    ∃ first second rest, l ++ t :: l' = first :: second :: rest := by
  cases l with
  | nil => exact absurd rfl h
  | cons first l =>
    cases l with
    | nil => exact ⟨first, t, l', rfl⟩
    | cons second l => exact ⟨first, second, l ++ t :: l', rfl⟩

theorem evaluateRule_tokens (rule : SigmaRule) (hd : rule.detection.Defines isFilter e)
    (hwords : splitWhitespace rule.detection.condition = e.tokens) :
    ∃ r, evaluateRule F toLowercase rule fields = .ok r ∧
      r.isSome = e.evaluated isFilter (rule.detection.valuation F toLowercase fields) := by
  match e with
  | .one (.one (.name n)) =>
    refine ⟨_, ?_, select_isSome F toLowercase fields hd List.mem_cons_self⟩
    unfold evaluateRule
    dsimp only
    rw [hwords]
    rfl
  | .one (.one (.not o)) =>
    have hor : "or" ∉ (Operand.not o).tokens := o.not.keyword_not_mem_tokens (by decide) (by decide)
    have hand : "and" ∉ (Operand.not o).tokens :=
      o.not.keyword_not_mem_tokens (by decide) (by decide)
    obtain ⟨second, rest, htokens⟩ := List.exists_cons_of_ne_nil o.tokens_ne_nil
    have hshape : (Operand.not o).tokens = "not" :: second :: rest := congrArg _ htokens
    rw [evaluateRule_words F toLowercase fields (hwords.trans hshape), if_neg (hshape ▸ hor),
      if_neg (hshape ▸ hand), select_keyword F toLowercase fields hd (by decide)]
    exact ⟨none, rfl, rfl⟩
  | .one (.and o c) =>
    have hor := (Conjunction.and o c).or_not_mem_tokens
    have hand : "and" ∈ (Conjunction.and o c).tokens :=
      List.mem_append_right _ List.mem_cons_self
    obtain ⟨first, second, rest, hshape⟩ : ∃ first second rest,
        o.tokens ++ "and" :: c.tokens = first :: second :: rest := exists_words o.tokens_ne_nil
    have hevaluated := evaluateAnd_tokens F toLowercase fields hd (c := Conjunction.and o c)
      fun p hp => List.mem_map_of_mem hp
    rw [evaluateRule_words F toLowercase fields (hwords.trans hshape), ← hshape]
    refine ⟨_, rfl, ?_⟩
    exact (congrArg Option.isSome ((if_neg hor).trans (if_pos hand))).trans hevaluated
  | .or c e =>
    have hor : "or" ∈ (Condition.or c e).tokens := List.mem_append_right _ List.mem_cons_self
    have hne : c.tokens ≠ [] := by
      cases c with
      | one o => exact o.tokens_ne_nil
      | and o c => exact List.append_ne_nil_of_left_ne_nil o.tokens_ne_nil _
    obtain ⟨first, second, rest, hshape⟩ : ∃ first second rest,
        c.tokens ++ "or" :: e.tokens = first :: second :: rest := exists_words hne
    rw [evaluateRule_words F toLowercase fields (hwords.trans hshape), ← hshape]
    refine ⟨_, rfl, ?_⟩
    exact (congrArg Option.isSome (if_pos hor)).trans (evaluateOr_tokens F toLowercase fields hd)

end

/-! ### The conditions it agrees with -/

theorem Conjunction.eval_eq_all (v : Name → Bool) (c : Conjunction) :
    c.eval v = c.operands.all (Operand.eval v) := by
  induction c with
  | one o => exact (Bool.and_true _).symm
  | and o c ih => rw [eval, ih, operands, List.all_cons]

/-- The evaluator never takes an operand that is false for true. -/
theorem Operand.eval_of_evaluated {isFilter v : Name → Bool} {o : Operand}
    (h : o.evaluated isFilter v = true) : o.eval v = true := by
  rw [eval_eq]
  unfold evaluated at h
  cases hneg : o.negated <;> simp_all

theorem Operand.evaluated_eq {isFilter : Name → Bool} {o : Operand}
    (h : isFilter o.subject → o.negated) (v : Name → Bool) : o.evaluated isFilter v = o.eval v := by
  rw [eval_eq]
  unfold evaluated
  cases hneg : o.negated with
  | true => simp
  | false =>
    have hsel : isFilter o.subject = false := by
      rw [Bool.eq_false_iff]
      intro hf
      rw [h hf] at hneg
      exact Bool.noConfusion hneg
    simp [hsel]

/-- A conjunction is read as its operands one by one, each filter under a `not`. -/
theorem Conjunction.supported_iff (isFilter : Name → Bool) (c : Conjunction) :
    ((∀ p ∈ c.operands, isFilter p.subject → p.negated) ∨ ∀ v, c.eval v = false) ↔
      ∀ v, c.operands.all (Operand.evaluated isFilter v) = c.eval v := by
  constructor
  · rintro (hneg | hfalse) v
    · rw [c.eval_eq_all v, Bool.eq_iff_iff, List.all_eq_true, List.all_eq_true]
      refine forall₂_congr fun p hp => ?_
      rw [Operand.evaluated_eq (hneg p hp) v]
    · have hall := (c.eval_eq_all v).symm.trans (hfalse v)
      rw [hfalse v]
      rw [List.all_eq_false] at hall ⊢
      obtain ⟨p, hp, hpv⟩ := hall
      exact ⟨p, hp, fun hev => hpv (Operand.eval_of_evaluated hev)⟩
  · intro h
    by_cases hneg : ∀ p ∈ c.operands, isFilter p.subject → p.negated
    · exact Or.inl hneg
    · refine Or.inr fun v => (h v).symm.trans ?_
      push Not at hneg
      obtain ⟨p, hp, hf, hpos⟩ := hneg
      rw [List.all_eq_false]
      exact ⟨p, hp, by simp [Operand.evaluated, hpos, hf]⟩

theorem supported_iff (isFilter : Name → Bool) (e : Condition) :
    e.Supported isFilter ↔ ∀ v, e.evaluated isFilter v = e.eval v := by
  match e with
  | .one (.one (.name n)) =>
    constructor
    · rintro ⟨m, hm, hf⟩ v
      obtain rfl := Operand.name.inj hm
      change (!isFilter n && v n) = v n
      rw [hf, Bool.not_false, Bool.true_and]
    · intro h
      have hn : (!isFilter n && true) = true := h fun _ => true
      exact ⟨n, rfl, by simpa using hn⟩
  | .one (.one (.not o)) =>
    constructor
    · rintro ⟨m, hm, -⟩
      exact Operand.noConfusion hm
    · intro h
      -- the valuation that makes the operand true
      have hfalse : false = (Operand.not o).eval fun _ => !(Operand.not o).negated :=
        h fun _ => !(Operand.not o).negated
      rw [Operand.eval_eq] at hfalse
      simp at hfalse
  | .one (.and o c) => exact (Conjunction.and o c).supported_iff isFilter
  | .or c e => exact forall_congr' fun v => eq_comm

/-- The name a text is, if it is one. -/
def nameOf (text : String) : Option Name :=
  if h : IsWord text.toList ∧ text ∉ keywords then some ⟨text, h.1, h.2⟩ else none

theorem nameOf_text (n : Name) : nameOf n.text = some n := dif_pos ⟨n.isWord, n.notKeyword⟩

/-- Matchers that match every event, or none. -/
def constant (b : Bool) : List FieldMatcher :=
  if b then [] else [{ field := "", modifier := .exists, values := [] }]

/-- Selections and filters with a given valuation, and a given condition over them. -/
def detectionOf (isFilter v : Name → Bool) (e : Condition) : Detection where
  selections text := (nameOf text).bind fun n => if isFilter n then none else some (constant (v n))
  filters text := (nameOf text).bind fun n => if isFilter n then some (constant (v n)) else none
  condition := String.ofList ([' '].intercalate (e.tokens.map String.toList))

def ruleOf (d : Detection) : SigmaRule where
  id := "unknown"
  title := ""
  status := .experimental
  level := .medium
  description := ""
  logsource := { category := "detection", product := none, service := none }
  detection := d
  tags := []
  attack := []
  falsepositives := []
  suppressForSecs := 0
  enabled := true

theorem detectionOf_defines (isFilter v : Name → Bool) (e : Condition) :
    (detectionOf isFilter v e).Defines isFilter e where
  filters n _ hf := by simp [detectionOf, nameOf_text, hf]
  selections n _ hf := by simp [detectionOf, nameOf_text, hf]
  keywords k hk := by simp [detectionOf, nameOf, hk]

theorem detectionOf_words (isFilter v : Name → Bool) (e : Condition) :
    splitWhitespace (detectionOf isFilter v e).condition = e.tokens := by
  have hwords : ∀ w ∈ e.tokens.map String.toList, IsWord w := by
    intro w hw
    obtain ⟨t, ht, rfl⟩ := List.mem_map.mp hw
    rcases Condition.mem_tokens ht with hk | ⟨n, -, rfl⟩
    · have hall : ∀ k ∈ keywords, IsWord k.toList := by decide
      exact hall t hk
    · exact n.isWord
  rw [splitWhitespace, detectionOf, String.toList_ofList, words_intercalate hwords, List.map_map]
  exact List.map_id'' (fun t => String.ofList_toList) e.tokens

section

variable (F : Type) [F64 F] (toLowercase : String → String)

theorem detectionOf_valuation (isFilter v : Name → Bool) (e : Condition) :
    (detectionOf isFilter v e).valuation F toLowercase Table.empty = v := by
  funext n
  have hconstant : (evaluateSelection F toLowercase Table.empty (constant (v n))).isSome = v n := by
    cases v n <;> rfl
  cases hf : isFilter n <;> simp [Detection.valuation, detectionOf, nameOf_text, hf, hconstant]

end

/-- Numbers are not used in the rule below. -/
instance noNumbers : F64 Unit where
  zero := ()
  one := ()
  half := ()
  epsilon := ()
  add _ _ := ()
  sub _ _ := ()
  mul _ _ := ()
  div _ _ := ()
  abs _ := ()
  gt _ _ := false
  lt _ _ := false
  ge _ _ := false
  le _ _ := false
  eq _ _ := false
  parse _ := none

def equalTo (field value : String) : List FieldMatcher :=
  [{ field := field, modifier := .equals, values := [value] }]

def exclusionRule : SigmaRule :=
  ruleOf
    { selections := (Table.empty.insert "sel1" (equalTo "process.name" "nc")).insert "sel2"
        (equalTo "process.name" "certutil.exe")
      filters := Table.empty.insert "filter" (equalTo "user.name" "deploy")
      condition := "sel1 or sel2 and not filter" }

/-- `sel1 or sel2 and not filter`. -/
def exclusion : Condition :=
  .or (.one (.name ⟨"sel1", by decide, by decide⟩))
    (.one (.and (.name ⟨"sel2", by decide, by decide⟩)
      (.one (.not (.name ⟨"filter", by decide, by decide⟩)))))

def excludedFields : Table String :=
  (Table.empty.insert "process.name" "certutil.exe").insert "user.name" "deploy"

end Wardex.Sigma
