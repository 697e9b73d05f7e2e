import Mathlib.Algebra.Group.Int.Defs
import Mathlib.Algebra.Group.Nat.Defs
import Mathlib.Data.List.Basic

/-! Decimal integers read from text the way fixed-width integers are parsed: an optional sign,
at least one digit, nothing else, and no value beyond the width. -/

namespace Wardex.Lib

def parseDigits (digits : List Char) : Option Nat :=
  if digits ≠ [] ∧ digits.all Char.isDigit then
    some (digits.foldl (fun n c => 10 * n + (c.toNat - '0'.toNat)) 0)
  else none

/-- A number written in decimal is read back. -/
theorem parseDigits_toDigits (n : Nat) : parseDigits (Nat.toDigits 10 n) = some n := by
  have hdigits : (Nat.toDigits 10 n).all Char.isDigit := by
    rw [List.all_eq_true]
    intro c hc
    exact Nat.isDigit_of_mem_toDigits (by decide) (by decide) hc
  rw [parseDigits, if_pos ⟨Nat.toDigits_ne_nil, hdigits⟩]
  exact congrArg some (Nat.ofDigitChars_eq_foldl.symm.trans Nat.ofDigitChars_ten_toDigits)

theorem toString_injective : Function.Injective fun n : Nat => toString n := by
  intro m n h
  have hdigits : Nat.toDigits 10 m = Nat.toDigits 10 n := by
    exact String.ofList_injective h
  exact Option.some.inj (by rw [← parseDigits_toDigits, hdigits, parseDigits_toDigits])

/-- A numbered name gives its number away. -/
theorem numbered_injective (name : String) :
    Function.Injective fun n : Nat => name ++ toString n := by
  intro m n h
  apply toString_injective
  have hlist := congrArg String.toList h
  simp only [String.toList_append, List.append_cancel_left_eq] at hlist
  exact String.toList_inj.mp hlist

/-- An unsigned integer of `width` bits may carry a plus sign. -/
def parseUnsigned (width : Nat) (text : List Char) : Option Nat :=
  let digits := match text with
    | '+' :: rest => rest
    | _ => text
  (parseDigits digits).filter fun n => n < 2 ^ width

/-- A number of the width written in decimal is read back. -/
theorem parseUnsigned_toDigits {width n : Nat} (h : n < 2 ^ width) :
    parseUnsigned width (Nat.toDigits 10 n) = some n := by
  have hdigits : parseUnsigned width (Nat.toDigits 10 n) =
      (parseDigits (Nat.toDigits 10 n)).filter fun m => m < 2 ^ width := by
    unfold parseUnsigned
    split
    · next rest hrest =>
      have hsign : '+' ∈ Nat.toDigits 10 n := hrest ▸ List.mem_cons_self
      exact absurd (Nat.isDigit_of_mem_toDigits (by decide) (by decide) hsign) (by decide)
    · rfl
  rw [hdigits, parseDigits_toDigits, Option.filter_some, if_pos (decide_eq_true h)]

def parseSigned (width : Nat) (text : List Char) : Option Int :=
  match text with
  | '-' :: rest => ((parseDigits rest).filter fun n => n ≤ 2 ^ (width - 1)).map fun n => -(n : Int)
  | '+' :: rest => ((parseDigits rest).filter fun n => n < 2 ^ (width - 1)).map Int.ofNat
  | _ => ((parseDigits text).filter fun n => n < 2 ^ (width - 1)).map Int.ofNat

theorem toList_toString_ofNat (n : Nat) : (toString (Int.ofNat n)).toList = Nat.toDigits 10 n := by
  exact String.toList_ofList

theorem toList_toString_negSucc (n : Nat) :
    (toString (Int.negSucc n)).toList = '-' :: Nat.toDigits 10 (n + 1) := by
  change ("-" ++ Nat.repr (n + 1)).toList = _
  rw [String.toList_append]
  exact congrArg (List.cons '-') String.toList_ofList

theorem mem_toString {n : Int} {c : Char} (h : c ∈ (toString n).toList) :
    c = '-' ∨ c.isDigit := by
  have hdigit : ∀ m : Nat, c ∈ Nat.toDigits 10 m → c.isDigit := fun m hc =>
    Nat.isDigit_of_mem_toDigits (by decide) (by decide) hc
  cases n with
  | ofNat m =>
    rw [toList_toString_ofNat] at h
    exact Or.inr (hdigit m h)
  | negSucc m =>
    rw [toList_toString_negSucc] at h
    exact (List.mem_cons.mp h).imp_right (hdigit (m + 1))

theorem parseSigned_toDigits {width n : Nat} (h : n < 2 ^ (width - 1)) :
    parseSigned width (Nat.toDigits 10 n) = some (n : Int) := by
  have hdigit : ∀ c ∈ Nat.toDigits 10 n, c.isDigit := fun c hc =>
    Nat.isDigit_of_mem_toDigits (by decide) (by decide) hc
  unfold parseSigned
  split
  · next rest hrest => exact absurd (hdigit '-' (hrest ▸ List.mem_cons_self)) (by decide)
  · next rest hrest => exact absurd (hdigit '+' (hrest ▸ List.mem_cons_self)) (by decide)
  · rw [parseDigits_toDigits, Option.filter_some, if_pos (decide_eq_true h)]
    rfl

/-- An integer of the width written in decimal is read back. -/
theorem parseSigned_toString {width : Nat} {n : Int} (hlow : -2 ^ (width - 1) ≤ n)
    (hhigh : n < 2 ^ (width - 1)) : parseSigned width (toString n).toList = some n := by
  cases n with
  | ofNat m =>
    rw [Int.ofNat_eq_natCast] at hhigh
    rw [toList_toString_ofNat]
    exact parseSigned_toDigits (by exact_mod_cast hhigh)
  | negSucc m =>
    have hfits : m + 1 ≤ 2 ^ (width - 1) := by
      have hnat : ((m + 1 : Nat) : Int) ≤ ((2 ^ (width - 1) : Nat) : Int) := by
        rw [Int.negSucc_eq] at hlow
        push_cast
        omega
      exact_mod_cast hnat
    rw [toList_toString_negSucc, parseSigned, parseDigits_toDigits, Option.filter_some,
      if_pos (decide_eq_true hfits)]
    rfl

end Wardex.Lib
