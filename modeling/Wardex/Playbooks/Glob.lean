import Mathlib.Data.List.Forall2
import Mathlib.Tactic.Ring
import Wardex.Audit.Log
import Wardex.Playbooks.Engine

/-! Host patterns of playbook triggers.  The matcher compares a byte of the pattern with the text
before it looks whether it is a star, so that a star that comes to stand at a star of the text
covers this one byte. -/

namespace Wardex.Playbooks

open Wardex.Lib Wardex.Policy Wardex.Audit

def asterisk : UInt8 := 42

def questionMark : UInt8 := 63

/-! ## What patterns mean -/

def Covers (b : UInt8) (piece : List UInt8) : Prop :=
  if b = asterisk then True else if b = questionMark then piece.length = 1 else piece = [b]

instance (b : UInt8) (piece : List UInt8) : Decidable (Covers b piece) :=
  inferInstanceAs (Decidable
    (if b = asterisk then True else if b = questionMark then piece.length = 1 else piece = [b]))

def Matches (pattern text : List UInt8) : Prop :=
  ∃ pieces : List (List UInt8), pieces.flatten = text ∧ List.Forall₂ Covers pattern pieces

/-- Each star that comes to stand at a star of the text covers just this one. -/
def StarsCoverStars : List UInt8 → List (List UInt8) → Prop
  | b :: pattern, piece :: pieces =>
    (b = asterisk → (piece :: pieces).flatten.head? = some asterisk → piece = [asterisk]) ∧
      StarsCoverStars pattern pieces
  | _, _ => True

def MatchesEagerly (pattern text : List UInt8) : Prop :=
  ∃ pieces : List (List UInt8), pieces.flatten = text ∧ List.Forall₂ Covers pattern pieces ∧
    StarsCoverStars pattern pieces

/-! ## The matcher -/

/-- The positions in the pattern and in the text, and where the last star stands in both. -/
structure Cursor where
  px : ℕ
  tx : ℕ
  star : Option (ℕ × ℕ)
  behind : ∀ s ∈ star, s.2 ≤ tx

namespace Cursor

def start : Cursor := ⟨0, 0, none, by simp⟩

def advance (c : Cursor) : Cursor :=
  ⟨c.px + 1, c.tx + 1, c.star, fun s hs => (c.behind s hs).trans (Nat.le_succ c.tx)⟩

def enterStar (c : Cursor) : Cursor := ⟨c.px + 1, c.tx, some (c.px, c.tx), by simp⟩

/-- Lets the last star cover one more byte. -/
def backtrack (s : ℕ × ℕ) : Cursor := ⟨s.1 + 1, s.2 + 1, some (s.1, s.2 + 1), by simp⟩

def measure (pattern text : List UInt8) (c : Cursor) : ℕ :=
  (text.length - c.star.elim 0 Prod.snd) * (pattern.length + 1) + (pattern.length - c.px)

variable {pattern text : List UInt8} {c : Cursor}

theorem measure_advance (h : c.px < pattern.length) :
    c.advance.measure pattern text < c.measure pattern text := by
  simp only [measure, advance]
  omega

theorem measure_enterStar (h : c.px < pattern.length) :
    c.enterStar.measure pattern text < c.measure pattern text := by
  have hstar : c.star.elim 0 Prod.snd ≤ c.tx := by
    cases hs : c.star with
    | none => exact Nat.zero_le _
    | some s => exact c.behind s hs
  have hmul : (text.length - c.tx) * (pattern.length + 1) ≤
      (text.length - c.star.elim 0 Prod.snd) * (pattern.length + 1) :=
    Nat.mul_le_mul_right _ (Nat.sub_le_sub_left hstar _)
  simp only [measure, enterStar, Option.elim_some]
  omega

theorem measure_backtrack {s : ℕ × ℕ} (hs : c.star = some s) (h : c.tx < text.length) :
    (backtrack s).measure pattern text < c.measure pattern text := by
  have hlt : s.2 < text.length := (c.behind s hs).trans_lt h
  have hmul : (text.length - (s.2 + 1)) * (pattern.length + 1) + (pattern.length + 1) =
      (text.length - s.2) * (pattern.length + 1) := by
    rw [← Nat.succ_mul, show (text.length - (s.2 + 1)).succ = text.length - s.2 by omega]
  simp only [measure, backtrack, Option.elim_some, hs]
  omega

end Cursor

def globLoop (pattern text : List UInt8) (c : Cursor) : Bool :=
  if htx : c.tx < text.length then
    if _hbyte : pattern[c.px]? = some questionMark ∨ pattern[c.px]? = some text[c.tx] then
      globLoop pattern text c.advance
    else if _hstar : pattern[c.px]? = some asterisk then globLoop pattern text c.enterStar
    else
      match _hlast : c.star with
      | some s => globLoop pattern text (.backtrack s)
      | none => false
  else (pattern.drop c.px).dropWhile (· = asterisk) = []
termination_by c.measure pattern text
decreasing_by
  · refine Cursor.measure_advance ?_
    rcases _hbyte with hb | hb <;> exact (List.getElem?_eq_some_iff.mp hb).1
  · exact Cursor.measure_enterStar (List.getElem?_eq_some_iff.mp _hstar).1
  · exact Cursor.measure_backtrack _hlast htx

def globMatch (pattern text : List UInt8) : Bool := globLoop pattern text .start

structure PlaybookTrigger (F : Type) where
  minSeverity : Option F
  alertReasons : List String
  mitreTechniques : List String
  hostPatterns : List String
  manualOnly : Bool

namespace PlaybookTrigger

variable {F : Type}

def hostOk (trigger : PlaybookTrigger F) (host : String) : Bool :=
  trigger.hostPatterns.isEmpty ||
    trigger.hostPatterns.any fun p => globMatch (asBytes p) (asBytes host)

/-- `PlaybookTrigger::matches`. -/
def matchesAlert [F64 F] (ops : TextOps) (trigger : PlaybookTrigger F) (severity : F)
    (reason : String) (techniques : List String) (host : String) : Bool :=
  if trigger.manualOnly then false
  else if trigger.minSeverity.any (F64.lt severity) then false
  else
    let reasonOk := trigger.alertReasons.isEmpty || trigger.alertReasons.any fun r =>
      lower ops r.toList <:+: lower ops reason.toList
    let techOk := trigger.mitreTechniques.isEmpty || trigger.mitreTechniques.any fun t =>
      techniques.contains t
    reasonOk && techOk && trigger.hostOk host

end PlaybookTrigger

/-! ## What the stars cover -/

theorem matchesEagerly_nil {text : List UInt8} : MatchesEagerly [] text ↔ text = [] := by
  constructor
  · rintro ⟨pieces, rfl, hcovers, -⟩
    rw [List.forall₂_nil_left_iff.mp hcovers]
    rfl
  · rintro rfl
    exact ⟨[], rfl, .nil, trivial⟩

theorem matchesEagerly_cons {b : UInt8} {pattern text : List UInt8} :
    MatchesEagerly (b :: pattern) text ↔ ∃ piece rest, text = piece ++ rest ∧ Covers b piece ∧
      (b = asterisk → text.head? = some asterisk → piece = [asterisk]) ∧
      MatchesEagerly pattern rest := by
  constructor
  · rintro ⟨pieces, rfl, hcovers, hstars⟩
    obtain ⟨piece, pieces, hpiece, hrest, rfl⟩ := List.forall₂_cons_left_iff.mp hcovers
    exact ⟨piece, pieces.flatten, rfl, hpiece, hstars.1, pieces, rfl, hrest, hstars.2⟩
  · rintro ⟨piece, rest, rfl, hpiece, hstar, pieces, rfl, hrest, hstars⟩
    exact ⟨piece :: pieces, rfl, .cons hpiece hrest, hstar, hstars⟩

theorem covers_iff {b : UInt8} (hb : b ≠ asterisk) {piece : List UInt8} :
    Covers b piece ↔ ∃ c, piece = [c] ∧ (b = questionMark ∨ b = c) := by
  rw [Covers, if_neg hb]
  split_ifs with hany
  · rw [List.length_eq_one_iff]
    simp [hany]
  · constructor
    · rintro rfl
      exact ⟨b, rfl, .inr rfl⟩
    · rintro ⟨c, rfl, hc | rfl⟩
      · exact absurd hc hany
      · rfl

theorem matchesEagerly_byte {b : UInt8} (hb : b ≠ asterisk) {pattern text : List UInt8} :
    MatchesEagerly (b :: pattern) text ↔ ∃ c rest, text = c :: rest ∧
      (b = questionMark ∨ b = c) ∧ MatchesEagerly pattern rest := by
  rw [matchesEagerly_cons]
  constructor
  · rintro ⟨piece, rest, rfl, hpiece, -, hrest⟩
    obtain ⟨c, rfl, hc⟩ := (covers_iff hb).mp hpiece
    exact ⟨c, rest, rfl, hc, hrest⟩
  · rintro ⟨c, rest, rfl, hc, hrest⟩
    exact ⟨[c], rest, rfl, (covers_iff hb).mpr ⟨c, rfl, hc⟩, fun hstar => absurd hstar hb, hrest⟩

theorem matchesEagerly_starAtStar {pattern text : List UInt8} :
    MatchesEagerly (asterisk :: pattern) (asterisk :: text) ↔ MatchesEagerly pattern text := by
  rw [matchesEagerly_cons]
  constructor
  · rintro ⟨piece, rest, htext, -, hstar, hrest⟩
    obtain rfl := hstar rfl rfl
    rwa [(List.cons.inj htext).2]
  · intro hrest
    exact ⟨[asterisk], text, rfl, trivial, fun _ _ => rfl, hrest⟩

theorem matchesEagerly_star {pattern text : List UInt8} (h : text.head? ≠ some asterisk) :
    MatchesEagerly (asterisk :: pattern) text ↔ ∃ n, MatchesEagerly pattern (text.drop n) := by
  rw [matchesEagerly_cons]
  constructor
  · rintro ⟨piece, rest, rfl, -, -, hrest⟩
    exact ⟨piece.length, by rwa [List.drop_left]⟩
  · rintro ⟨n, hrest⟩
    exact ⟨text.take n, text.drop n, (List.take_append_drop n text).symm, trivial,
      fun _ hhead => absurd hhead h, hrest⟩

theorem matchesEagerly_end {pattern : List UInt8} :
    MatchesEagerly pattern [] ↔ pattern.dropWhile (· = asterisk) = [] := by
  induction pattern with
  | nil => simp [matchesEagerly_nil]
  | cons b pattern ih =>
    by_cases hb : b = asterisk
    · subst hb
      rw [matchesEagerly_star (by simp), List.dropWhile_cons_of_pos (by simp), ← ih]
      simp
    · rw [matchesEagerly_byte hb, List.dropWhile_cons_of_neg (by simpa using hb)]
      simp

/-! ## The loop -/

section

variable {pattern text : List UInt8} {c : Cursor}

/-- What is left to match: from where the cursor stands, or with a longer last star. -/
def Ahead (pattern text : List UInt8) (c : Cursor) : Prop :=
  MatchesEagerly (pattern.drop c.px) (text.drop c.tx) ∨
    ∃ s ∈ c.star, ∃ n > s.2, MatchesEagerly (pattern.drop (s.1 + 1)) (text.drop n)

/-- However much the last star covers, the pattern behind it does not come to `px` before `tx`:
the bytes between are matched one by one, and a longer star only shifts them. -/
def Earliest (pattern text : List UInt8) (c : Cursor) : Prop :=
  ∀ s ∈ c.star, ∀ n ≥ s.2, MatchesEagerly (pattern.drop (s.1 + 1)) (text.drop n) →
    ∃ m ≥ c.tx, MatchesEagerly (pattern.drop c.px) (text.drop m)

theorem drop_of_getElem? {l : List UInt8} {i : ℕ} {b : UInt8} (h : l[i]? = some b) :
    l.drop i = b :: l.drop (i + 1) := by
  obtain ⟨hi, rfl⟩ := List.getElem?_eq_some_iff.mp h
  exact List.drop_eq_getElem_cons hi

/-- A star that stands before `m` covers what is up to some later place; at a star of the text,
one byte. -/
theorem exists_drop_of_star {p : List UInt8} {m : ℕ}
    (h : MatchesEagerly (asterisk :: p) (text.drop m)) :
    ∃ k ≥ m, MatchesEagerly p (text.drop k) ∧ (text[m]? = some asterisk → k = m + 1) := by
  by_cases hm : text[m]? = some asterisk
  · rw [drop_of_getElem? hm, matchesEagerly_starAtStar] at h
    exact ⟨m + 1, Nat.le_succ m, h, fun _ => rfl⟩
  · rw [matchesEagerly_star (by rwa [List.head?_drop])] at h
    obtain ⟨n, hn⟩ := h
    rw [List.drop_drop] at hn
    exact ⟨m + n, Nat.le_add_right m n, hn, fun hstar => absurd hstar hm⟩

theorem Earliest.start : Earliest pattern text .start := by
  rintro s ⟨⟩

theorem Earliest.enterStar : Earliest pattern text c.enterStar := by
  rintro s ⟨⟩ n hn hmatch
  exact ⟨n, hn, hmatch⟩

theorem Earliest.backtrack {s : ℕ × ℕ} : Earliest pattern text (.backtrack s) := by
  rintro s ⟨⟩ n hn hmatch
  exact ⟨n, hn, hmatch⟩

/-- One byte of the pattern further, whether it is a star or not. -/
theorem Earliest.advance (h : Earliest pattern text c) {b d : UInt8}
    (hb : pattern[c.px]? = some b) (hd : text[c.tx]? = some d) (hstar : b = asterisk → d = b) :
    Earliest pattern text c.advance := by
  intro s hs n hn hmatch
  obtain ⟨m, hm, hrest⟩ := h s hs n hn hmatch
  rw [drop_of_getElem? hb] at hrest
  by_cases hb' : b = asterisk
  · subst hb'
    obtain ⟨k, hk, hrest', hone⟩ := exists_drop_of_star hrest
    refine ⟨k, ?_, hrest'⟩
    change c.tx + 1 ≤ k
    rcases Nat.eq_or_lt_of_le hm with heq | hlt
    · rw [hone (by rw [← heq, hd, hstar rfl])]
      omega
    · omega
  · obtain ⟨e, rest, hdrop, -, hrest'⟩ := (matchesEagerly_byte hb').mp hrest
    refine ⟨m + 1, Nat.succ_le_succ hm, ?_⟩
    rwa [← List.tail_drop, hdrop]

theorem matchesEagerly_step {b d : UInt8} {p t : List UInt8} (h : b = questionMark ∨ b = d) :
    MatchesEagerly (b :: p) (d :: t) ↔ MatchesEagerly p t := by
  by_cases hb : b = asterisk
  · obtain rfl : b = d := h.resolve_left fun hany => absurd (hany.symm.trans hb) (by decide)
    rw [hb, matchesEagerly_starAtStar]
  · rw [matchesEagerly_byte hb]
    simp [h]

theorem ahead_advance {b d : UInt8} (hb : pattern[c.px]? = some b) (hd : text[c.tx]? = some d)
    (h : b = questionMark ∨ b = d) :
    Ahead pattern text c.advance ↔ Ahead pattern text c := by
  rw [Ahead, Ahead, drop_of_getElem? hb, drop_of_getElem? hd, matchesEagerly_step h]
  rfl

/-- The stars before this one need not be kept. -/
theorem ahead_enterStar (hinv : Earliest pattern text c) (hb : pattern[c.px]? = some asterisk)
    (hd : text[c.tx]? ≠ some asterisk) :
    Ahead pattern text c.enterStar ↔ Ahead pattern text c := by
  have hstar : MatchesEagerly (pattern.drop c.px) (text.drop c.tx) ↔
      ∃ n ≥ c.tx, MatchesEagerly (pattern.drop (c.px + 1)) (text.drop n) := by
    rw [drop_of_getElem? hb, matchesEagerly_star (by rwa [List.head?_drop])]
    simp only [List.drop_drop]
    constructor
    · rintro ⟨n, hn⟩
      exact ⟨c.tx + n, Nat.le_add_right _ n, hn⟩
    · rintro ⟨n, hle, hn⟩
      exact ⟨n - c.tx, by rwa [Nat.add_sub_cancel' hle]⟩
  have hnew : Ahead pattern text c.enterStar ↔
      ∃ n ≥ c.tx, MatchesEagerly (pattern.drop (c.px + 1)) (text.drop n) := by
    constructor
    · rintro (hhere | ⟨s, ⟨⟩, n, hn, hmatch⟩)
      · exact ⟨c.tx, le_refl _, hhere⟩
      · exact ⟨n, Nat.le_of_lt hn, hmatch⟩
    · rintro ⟨n, hle, hmatch⟩
      rcases Nat.eq_or_lt_of_le hle with rfl | hlt
      · exact .inl hmatch
      · exact .inr ⟨(c.px, c.tx), rfl, n, hlt, hmatch⟩
  rw [hnew, Ahead, hstar]
  refine ⟨.inl, ?_⟩
  rintro (hhere | ⟨s, hs, n, hn, hmatch⟩)
  · exact hhere
  · obtain ⟨m, hm, hrest⟩ := hinv s hs n (Nat.le_of_lt hn) hmatch
    rw [drop_of_getElem? hb] at hrest
    obtain ⟨k, hk, hrest', -⟩ := exists_drop_of_star hrest
    exact ⟨k, hm.trans hk, hrest'⟩

theorem ahead_backtrack {s : ℕ × ℕ} :
    Ahead pattern text (.backtrack s) ↔
      ∃ n > s.2, MatchesEagerly (pattern.drop (s.1 + 1)) (text.drop n) := by
  constructor
  · rintro (hhere | ⟨_, ⟨⟩, n, hn, hmatch⟩)
    · exact ⟨s.2 + 1, Nat.lt_succ_self _, hhere⟩
    · exact ⟨n, Nat.lt_of_succ_lt hn, hmatch⟩
  · rintro ⟨n, hn, hmatch⟩
    rcases Nat.eq_or_lt_of_le (Nat.succ_le_of_lt hn) with rfl | hlt
    · exact .inl hmatch
    · exact .inr ⟨_, rfl, n, hlt, hmatch⟩

theorem not_matches_here {d : UInt8} (hd : text[c.tx]? = some d)
    (hbyte : ¬(pattern[c.px]? = some questionMark ∨ pattern[c.px]? = some d))
    (hstar : pattern[c.px]? ≠ some asterisk) :
    ¬ MatchesEagerly (pattern.drop c.px) (text.drop c.tx) := by
  rw [drop_of_getElem? hd]
  cases hb : pattern[c.px]? with
  | none =>
    rw [List.drop_eq_nil_of_le (List.getElem?_eq_none_iff.mp hb), matchesEagerly_nil]
    exact List.cons_ne_nil _ _
  | some b =>
    rw [drop_of_getElem? hb, matchesEagerly_byte fun h => hstar (hb.trans (congrArg some h))]
    rintro ⟨e, rest, htext, hmatch, -⟩
    obtain ⟨rfl, -⟩ := List.cons.inj htext
    refine hbyte (hmatch.imp (fun h => ?_) fun h => ?_) <;> rw [hb, h]

theorem globLoop_iff (hinv : Earliest pattern text c) :
    globLoop pattern text c = true ↔ Ahead pattern text c := by
  fun_induction globLoop pattern text c with
  | case1 c htx hbyte ih =>
    have hd : text[c.tx]? = some text[c.tx] := List.getElem?_eq_getElem htx
    obtain ⟨b, hb, h⟩ : ∃ b, pattern[c.px]? = some b ∧ (b = questionMark ∨ b = text[c.tx]) := by
      rcases hbyte with hb | hb
      · exact ⟨_, hb, .inl rfl⟩
      · exact ⟨_, hb, .inr rfl⟩
    have hstar : b = asterisk → text[c.tx] = b := fun hb' =>
      (h.resolve_left fun hany => absurd (hany.symm.trans hb') (by decide)).symm
    rw [ih (hinv.advance hb hd hstar), ahead_advance hb hd h]
  | case2 c htx hbyte hstar ih =>
    have hd : text[c.tx]? = some text[c.tx] := List.getElem?_eq_getElem htx
    rw [ih .enterStar, ahead_enterStar hinv hstar]
    intro hsame
    exact hbyte (.inr (hstar.trans (hsame.symm.trans hd)))
  | case3 c htx hbyte hstar s hlast ih =>
    have hhere := not_matches_here (List.getElem?_eq_getElem htx) hbyte hstar
    rw [ih .backtrack, ahead_backtrack, Ahead, or_iff_right hhere, hlast]
    simp
  | case4 c htx hbyte hstar hlast =>
    have hhere := not_matches_here (List.getElem?_eq_getElem htx) hbyte hstar
    rw [Ahead, or_iff_right hhere, hlast]
    simp
  | case5 c htx =>
    have hend : ∀ m ≥ c.tx, text.drop m = [] := fun m hm =>
      List.drop_eq_nil_of_le ((Nat.le_of_not_lt htx).trans hm)
    rw [decide_eq_true_eq, ← matchesEagerly_end, Ahead, hend c.tx (le_refl _)]
    refine ⟨.inl, ?_⟩
    rintro (hhere | ⟨s, hs, n, hn, hmatch⟩)
    · exact hhere
    · obtain ⟨m, hm, hrest⟩ := hinv s hs n (Nat.le_of_lt hn) hmatch
      rwa [hend m hm] at hrest

end

theorem globMatch_eq_true {pattern text : List UInt8} :
    globMatch pattern text = true ↔ MatchesEagerly pattern text := by
  rw [globMatch, globLoop_iff .start, Ahead]
  simp [Cursor.start]

theorem MatchesEagerly.matches {pattern text : List UInt8} (h : MatchesEagerly pattern text) :
    Matches pattern text := by
  obtain ⟨pieces, htext, hcovers, -⟩ := h
  exact ⟨pieces, htext, hcovers⟩

/-- The matcher is exact on the texts that match only if they match with every star that comes to
stand at a star covering just this one. -/
theorem globMatch_iff (pattern text : List UInt8) :
    (globMatch pattern text = true ↔ Matches pattern text) ↔
      (Matches pattern text → MatchesEagerly pattern text) := by
  rw [globMatch_eq_true]
  exact ⟨fun h => h.mpr, fun h => ⟨MatchesEagerly.matches, h⟩⟩

theorem starsCoverStars_of_notMem {pattern : List UInt8} {pieces : List (List UInt8)}
    (h : asterisk ∉ pieces.flatten) : StarsCoverStars pattern pieces := by
  induction pattern generalizing pieces with
  | nil => trivial
  | cons b pattern ih =>
    cases pieces with
    | nil => trivial
    | cons piece pieces =>
      refine ⟨fun _ hhead => absurd (List.mem_of_mem_head? hhead) h, ih fun hmem => h ?_⟩
      exact List.mem_append_right piece hmem

/-- A text without stars matches as it should. -/
theorem globMatch_of_notMem {text : List UInt8} (h : asterisk ∉ text) (pattern : List UInt8) :
    globMatch pattern text = true ↔ Matches pattern text := by
  refine (globMatch_iff pattern text).mpr ?_
  rintro ⟨pieces, rfl, hcovers⟩
  exact ⟨pieces, rfl, hcovers, starsCoverStars_of_notMem h⟩

theorem PlaybookTrigger.hostOk_iff {F : Type} (trigger : PlaybookTrigger F) {host : String}
    (h : asterisk ∉ asBytes host) : trigger.hostOk host = true ↔
      trigger.hostPatterns = [] ∨
        ∃ p ∈ trigger.hostPatterns, Matches (asBytes p) (asBytes host) := by
  simp only [hostOk, Bool.or_eq_true, List.isEmpty_iff, List.any_eq_true, globMatch_of_notMem h]

/-- The pattern `*a` does not match `*xa`: its star covers the first byte only. -/
theorem star_taken_literally :
    globMatch (asBytes "*a") (asBytes "*xa") = false ∧ Matches (asBytes "*a") (asBytes "*xa") := by
  refine ⟨by decide +kernel, [asBytes "*x", asBytes "a"], by decide +kernel, ?_⟩
  exact .cons (by decide +kernel) (.cons (by decide +kernel) .nil)

end Wardex.Playbooks
