import Wardex.Hunt.Search
import Wardex.Lib.Fallible

/-! The grammar of hunt queries: `OR` binds weaker than `AND`, written or not, which binds weaker
than `NOT`, and both group to the left. The parser accepts what the grammar derives. -/

namespace Wardex.Hunt

open Wardex.Lib

/-- What a predicate is an operand of, from the weakest: a query is a disjunction of conjunctions of
operands. -/
inductive Level where
  | disjunction
  | conjunction
  | operand

inductive Derives : Level → List HuntToken → HuntPredicate → Prop where
  | conjunction {ts p} : Derives .conjunction ts p → Derives .disjunction ts p
  | or {ts us l r} : Derives .disjunction ts l → Derives .conjunction us r →
      Derives .disjunction (ts ++ .or :: us) (.or l r)
  | operand {ts p} : Derives .operand ts p → Derives .conjunction ts p
  | and {ts us l r} : Derives .conjunction ts l → Derives .operand us r →
      Derives .conjunction (ts ++ .and :: us) (.and l r)
  | adjacent {ts us l r} : Derives .conjunction ts l → Derives .operand us r →
      Derives .conjunction (ts ++ us) (.and l r)
  | not {ts p} : Derives .operand ts p → Derives .operand (.not :: ts) (.not p)
  | parens {ts p} : Derives .disjunction ts p →
      Derives .operand (.lParen :: (ts ++ [.rParen])) p
  | fieldValue {field value} :
      Derives .operand [.fieldValue field value] (.fieldMatch field value)
  | word {text} : Derives .operand [.word text] (.freeText text)

/-- The tokens up to those that are left derive the predicate. -/
def Reads (level : Level) (tokens : List HuntToken) (parsed : HuntPredicate × List HuntToken) :
    Prop :=
  ∃ ts, tokens = ts ++ parsed.2 ∧ Derives level ts parsed.1

theorem Reads.or {tokens rest behind : List HuntToken} {l r : HuntPredicate}
    (hl : Reads .disjunction tokens (l, .or :: rest)) (hr : Reads .conjunction rest (r, behind)) :
    Reads .disjunction tokens (.or l r, behind) := by
  obtain ⟨ts, rfl, hts⟩ := hl
  obtain ⟨us, rfl, hus⟩ := hr
  exact ⟨ts ++ .or :: us, by simp, .or hts hus⟩

theorem Reads.and {tokens rest behind : List HuntToken} {l r : HuntPredicate}
    (hl : Reads .conjunction tokens (l, .and :: rest)) (hr : Reads .operand rest (r, behind)) :
    Reads .conjunction tokens (.and l r, behind) := by
  obtain ⟨ts, rfl, hts⟩ := hl
  obtain ⟨us, rfl, hus⟩ := hr
  exact ⟨ts ++ .and :: us, by simp, .and hts hus⟩

theorem Reads.adjacent {tokens rest behind : List HuntToken} {l r : HuntPredicate}
    (hl : Reads .conjunction tokens (l, rest)) (hr : Reads .operand rest (r, behind)) :
    Reads .conjunction tokens (.and l r, behind) := by
  obtain ⟨ts, rfl, hts⟩ := hl
  obtain ⟨us, hrest, hus⟩ := hr
  exact ⟨ts ++ us, by rw [List.append_assoc, ← hrest], .adjacent hts hus⟩

theorem Reads.weaken {level weaker : Level} {tokens : List HuntToken}
    {parsed : HuntPredicate × List HuntToken} (h : Reads level tokens parsed)
    (hlevel : ∀ ts, Derives level ts parsed.1 → Derives weaker ts parsed.1) :
    Reads weaker tokens parsed := by
  obtain ⟨ts, htokens, hts⟩ := h
  exact ⟨ts, htokens, hlevel ts hts⟩

theorem parseUnary_of_ne_not {token : HuntToken} (h : token ≠ .not) (rest : List HuntToken) :
    parseUnary (token :: rest) = parsePrimary (token :: rest) := by
  rw [parseUnary]
  exact h

/-! ### What is parsed is derived -/

mutual

theorem reads_parseOr {tokens : List HuntToken} {parsed : Parsed tokens}
    (h : parseOr tokens = .ok parsed) : Reads .disjunction tokens parsed.1 := by
  rw [parseOr] at h
  obtain ⟨left, hleft, hrest⟩ := bind_eq_ok.mp h
  exact reads_parseOrRest ((reads_parseAnd hleft).weaken fun _ => .conjunction) hrest
termination_by (tokens.length, 5)

theorem reads_parseOrRest {tokens : List HuntToken} {left parsed : Parsed tokens}
    (hleft : Reads .disjunction tokens left.1) (h : parseOrRest tokens left = .ok parsed) :
    Reads .disjunction tokens parsed.1 := by
  rw [parseOrRest] at h
  split at h
  · next rest hrest =>
    obtain ⟨right, hright, hloop⟩ := bind_eq_ok.mp h
    have hopen : Reads .disjunction tokens (left.1.1, .or :: rest) := hrest ▸ hleft
    exact reads_parseOrRest (hopen.or (reads_parseAnd hright)) hloop
  · cases h
    exact hleft
termination_by (left.1.2.length, 4)
decreasing_by all_goals grind

theorem reads_parseAnd {tokens : List HuntToken} {parsed : Parsed tokens}
    (h : parseAnd tokens = .ok parsed) : Reads .conjunction tokens parsed.1 := by
  rw [parseAnd] at h
  obtain ⟨left, hleft, hrest⟩ := bind_eq_ok.mp h
  exact reads_parseAndRest ((reads_parseUnary hleft).weaken fun _ => .operand) hrest
termination_by (tokens.length, 3)

theorem reads_parseAndRest {tokens : List HuntToken} {left parsed : Parsed tokens}
    (hleft : Reads .conjunction tokens left.1) (h : parseAndRest tokens left = .ok parsed) :
    Reads .conjunction tokens parsed.1 := by
  rw [parseAndRest] at h
  split at h
  · next rest hrest =>
    obtain ⟨right, hright, hloop⟩ := bind_eq_ok.mp h
    have hopen : Reads .conjunction tokens (left.1.1, .and :: rest) := hrest ▸ hleft
    exact reads_parseAndRest (hopen.and (reads_parseUnary hright)) hloop
  · next token rest _ hrest =>
    split at h
    · obtain ⟨right, hright, hloop⟩ := bind_eq_ok.mp h
      have hopen : Reads .conjunction tokens (left.1.1, token :: rest) := hrest ▸ hleft
      exact reads_parseAndRest (hopen.adjacent (reads_parseUnary hright)) hloop
    · cases h
      exact hleft
  · cases h
    exact hleft
termination_by (left.1.2.length, 4)
decreasing_by all_goals grind

theorem reads_parseUnary {tokens : List HuntToken} {parsed : Parsed tokens}
    (h : parseUnary tokens = .ok parsed) : Reads .operand tokens parsed.1 := by
  match tokens, parsed, h with
  | [], _, h =>
    rw [parseUnary] at h
    cases h
  | token :: rest, parsed, h =>
    by_cases hnot : token = .not
    · subst hnot
      rw [parseUnary] at h
      obtain ⟨inner, hinner, hparsed⟩ := bind_eq_ok.mp h
      cases hparsed
      obtain ⟨ts, hts, hderives⟩ := reads_parseUnary hinner
      exact ⟨.not :: ts, congrArg _ hts, .not hderives⟩
    · rw [parseUnary_of_ne_not hnot] at h
      exact reads_parsePrimary h
termination_by (tokens.length, 2)

theorem reads_parsePrimary {tokens : List HuntToken} {parsed : Parsed tokens}
    (h : parsePrimary tokens = .ok parsed) : Reads .operand tokens parsed.1 := by
  match tokens, parsed, h with
  | [], _, h =>
    rw [parsePrimary] at h
    cases h
  | token :: rest, parsed, h =>
    cases token with
    | lParen =>
      rw [parsePrimary] at h
      obtain ⟨inner, hinner, hparsed⟩ := bind_eq_ok.mp h
      obtain ⟨ts, hts, hderives⟩ := reads_parseOr hinner
      split at hparsed
      · next behind hbehind =>
        cases hparsed
        exact ⟨.lParen :: (ts ++ [.rParen]), by simp [hts, hbehind], .parens hderives⟩
      · cases hparsed
    | fieldValue field value =>
      rw [parsePrimary] at h
      cases h
      exact ⟨[.fieldValue field value], rfl, .fieldValue⟩
    | word text =>
      rw [parsePrimary] at h
      cases h
      exact ⟨[.word text], rfl, .word⟩
    | and | or | not | rParen =>
      rw [parsePrimary] at h
      all_goals first | cases h | simp
termination_by (tokens.length, 1)

end

/-! ### What is derived is parsed -/

/-- A token that continues a conjunction. -/
def Continues (rest : List HuntToken) : Prop :=
  ∃ token ∈ rest.head?, token = .and ∨ token.startsOperand

/-- Where the parser of the level stands when it has read the tokens of a predicate. -/
def Arrives (level : Level) (ts : List HuntToken) (p : HuntPredicate) : Prop :=
  ∀ rest, ∃ h : rest.length < (ts ++ rest).length,
    match level with
    | .operand => parseUnary (ts ++ rest) = .ok ⟨(p, rest), h⟩
    | .conjunction => parseAnd (ts ++ rest) = parseAndRest (ts ++ rest) ⟨(p, rest), h⟩
    | .disjunction =>
      ¬ Continues rest → parseOr (ts ++ rest) = parseOrRest (ts ++ rest) ⟨(p, rest), h⟩

theorem parseAndRest_of_not_continues {tokens : List HuntToken} {left : Parsed tokens}
    (h : ¬ Continues left.1.2) : parseAndRest tokens left = .ok left := by
  rw [parseAndRest]
  split
  · next rest hrest => exact absurd ⟨.and, by rw [hrest]; rfl, Or.inl rfl⟩ h
  · next token rest _ hrest =>
    rw [if_neg fun hstarts => h ⟨token, by rw [hrest]; rfl, Or.inr hstarts⟩]
  · rfl

theorem parseOrRest_of_ne_or {tokens : List HuntToken} {left : Parsed tokens}
    (h : left.1.2.head? ≠ some .or) : parseOrRest tokens left = .ok left := by
  rw [parseOrRest]
  split
  · next rest hrest => exact absurd (by rw [hrest]; rfl) h
  · rfl

/-- An operand begins with a token that can. -/
theorem Derives.startsOperand {ts : List HuntToken} {p : HuntPredicate}
    (h : Derives .operand ts p) : ∃ token rest, ts = token :: rest ∧ token.startsOperand := by
  cases h with
  | not _ => exact ⟨_, _, rfl, rfl⟩
  | parens _ => exact ⟨_, _, rfl, rfl⟩
  | fieldValue => exact ⟨_, _, rfl, rfl⟩
  | word => exact ⟨_, _, rfl, rfl⟩

theorem Derives.arrives {level : Level} {ts : List HuntToken} {p : HuntPredicate}
    (h : Derives level ts p) : Arrives level ts p := by
  induction h with
  | @conjunction ts p _ ih =>
    intro rest
    obtain ⟨hlength, hparse⟩ := ih rest
    refine ⟨hlength, fun hstops => ?_⟩
    have hand : parseAnd (ts ++ rest) = .ok ⟨(p, rest), hlength⟩ :=
      hparse.trans (parseAndRest_of_not_continues hstops)
    rw [parseOr, hand]
    rfl
  | @or ts us l r _ _ ihl ihr =>
    intro rest
    obtain ⟨hl, hleft⟩ := ihl (.or :: (us ++ rest))
    obtain ⟨hr, hright⟩ := ihr rest
    have hassoc : (ts ++ .or :: us) ++ rest = ts ++ .or :: (us ++ rest) := by simp
    rw [hassoc]
    refine ⟨by grind, fun hstops => ?_⟩
    have hand : parseAnd (us ++ rest) = .ok ⟨(r, rest), hr⟩ :=
      hright.trans (parseAndRest_of_not_continues hstops)
    rw [hleft (by simp [Continues, HuntToken.startsOperand]), parseOrRest]
    simp only [hand]
    rfl
  | @operand ts p _ ih =>
    intro rest
    obtain ⟨hlength, hparse⟩ := ih rest
    refine ⟨hlength, ?_⟩
    show parseAnd (ts ++ rest) = _
    rw [parseAnd, hparse]
    rfl
  | @and ts us l r _ _ ihl ihr =>
    intro rest
    obtain ⟨hl, hleft⟩ := ihl (.and :: (us ++ rest))
    obtain ⟨hr, hright⟩ := ihr rest
    have hassoc : (ts ++ .and :: us) ++ rest = ts ++ .and :: (us ++ rest) := by simp
    rw [hassoc]
    refine ⟨by grind, ?_⟩
    show parseAnd _ = _
    have hunary : parseUnary (us ++ rest) = .ok ⟨(r, rest), hr⟩ := hright
    rw [hleft, parseAndRest]
    simp only [hunary]
    rfl
  | @adjacent ts us l r _ hr ihl ihr =>
    intro rest
    obtain ⟨token, us', rfl, hstarts⟩ := hr.startsOperand
    obtain ⟨hl, hleft⟩ := ihl (token :: (us' ++ rest))
    obtain ⟨hr, hright⟩ := ihr rest
    rw [List.append_assoc, List.cons_append]
    refine ⟨by grind, ?_⟩
    show parseAnd _ = _
    have hunary : parseUnary (token :: (us' ++ rest)) = .ok ⟨(r, rest), hr⟩ := hright
    rw [hleft, parseAndRest]
    split
    · next heq => cases heq; cases hstarts
    · next heq =>
      cases heq
      rw [if_pos hstarts]
      simp only [hunary]
      rfl
    · next heq => cases heq
  | @not ts p _ ih =>
    intro rest
    obtain ⟨hlength, hparse⟩ := ih rest
    refine ⟨Nat.lt_succ_of_lt hlength, ?_⟩
    show parseUnary (.not :: (ts ++ rest)) = _
    have hunary : parseUnary (ts ++ rest) = .ok ⟨(p, rest), hlength⟩ := hparse
    rw [parseUnary, hunary]
    rfl
  | @parens ts p _ ih =>
    intro rest
    obtain ⟨hlength, hparse⟩ := ih (.rParen :: rest)
    have hassoc : .lParen :: (ts ++ [.rParen]) ++ rest = .lParen :: (ts ++ .rParen :: rest) := by
      simp
    rw [hassoc]
    refine ⟨by grind, ?_⟩
    have hor : parseOr (ts ++ .rParen :: rest) = .ok ⟨(p, .rParen :: rest), hlength⟩ :=
      (hparse (by simp [Continues, HuntToken.startsOperand])).trans
        (parseOrRest_of_ne_or (by simp))
    show parseUnary (.lParen :: (ts ++ .rParen :: rest)) = _
    rw [parseUnary_of_ne_not (by simp), parsePrimary, hor]
    rfl
  | @fieldValue field value =>
    intro rest
    refine ⟨Nat.lt_succ_self _, ?_⟩
    show parseUnary (.fieldValue field value :: rest) = _
    rw [parseUnary_of_ne_not (by simp), parsePrimary]
  | @word text =>
    intro rest
    refine ⟨Nat.lt_succ_self _, ?_⟩
    show parseUnary (.word text :: rest) = _
    rw [parseUnary_of_ne_not (by simp), parsePrimary]

theorem Derives.ne_nil {level : Level} {ts : List HuntToken} {p : HuntPredicate}
    (h : Derives level ts p) : ts ≠ [] := by
  rintro rfl
  obtain ⟨hlength, -⟩ := h.arrives []
  exact absurd hlength (Nat.lt_irrefl 0)

theorem derives_of_parseOr {tokens : List HuntToken} {parsed : Parsed tokens}
    (h : parseOr tokens = .ok parsed) (hnil : parsed.1.2 = []) :
    Derives .disjunction tokens parsed.1.1 := by
  obtain ⟨ts, hts, hderives⟩ := reads_parseOr h
  have htokens : tokens = ts := hts.trans (by rw [hnil, List.append_nil])
  rw [← htokens] at hderives
  exact hderives

theorem Derives.parseOr {tokens : List HuntToken} {p : HuntPredicate}
    (h : Derives .disjunction tokens p) : ∃ hlength, parseOr tokens = .ok ⟨(p, []), hlength⟩ := by
  have harrives := h.arrives
  unfold Arrives at harrives
  have hall := harrives []
  rw [List.append_nil] at hall
  obtain ⟨hlength, hparse⟩ := hall
  exact ⟨hlength, (hparse (by simp [Continues])).trans (parseOrRest_of_ne_or (by simp))⟩

/-- Tokens derive one predicate at most: the levels leave no choice of how to group them. -/
theorem Derives.unique {tokens : List HuntToken} {p p' : HuntPredicate}
    (h : Derives .disjunction tokens p) (h' : Derives .disjunction tokens p') : p = p' := by
  obtain ⟨_, hparse⟩ := h.parseOr
  obtain ⟨_, hparse'⟩ := h'.parseOr
  have hparsed := Except.ok.inj (hparse.symm.trans hparse')
  exact (Prod.mk.inj (Subtype.mk.inj hparsed)).1

/-- The parser gives a predicate if and only if the tokens derive it. -/
theorem parseHuntQuery_eq_ok {input : String} {p : HuntPredicate} :
    parseHuntQuery input = .ok p ↔ Derives .disjunction (tokenizeHunt input.toList) p := by
  unfold parseHuntQuery
  constructor
  · intro h
    simp only at h
    split_ifs at h
    obtain ⟨parsed, hparsed, hrest⟩ := bind_eq_ok.mp h
    split_ifs at hrest with hnil
    cases hrest
    exact derives_of_parseOr hparsed hnil
  · intro h
    obtain ⟨_, hparse⟩ := h.parseOr
    simp only [if_neg h.ne_nil]
    refine bind_eq_ok.mpr ⟨_, hparse, ?_⟩
    rw [if_pos rfl]

end Wardex.Hunt
