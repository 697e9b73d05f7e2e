import Mathlib.Data.List.Forall2

/-! Comparison of byte strings that looks at every byte. -/

namespace Wardex.Lib

/-- The differences of all pairs of bytes, accumulated. -/
def ctEqBytes (a b : List UInt8) : Bool :=
  if a.length ≠ b.length then false
  else (a.zip b).foldl (fun diff p => diff ||| (p.1 ^^^ p.2)) 0 = 0

theorem or_eq_zero_iff {a b : UInt8} : a ||| b = 0 ↔ a = 0 ∧ b = 0 := by
  simp only [← UInt8.toNat_inj, UInt8.toNat_or, UInt8.toNat_zero, Nat.or_eq_zero_iff]

theorem foldl_or_xor_eq_zero {l : List (UInt8 × UInt8)} {diff : UInt8} :
    l.foldl (fun diff p => diff ||| (p.1 ^^^ p.2)) diff = 0 ↔
      diff = 0 ∧ ∀ p ∈ l, p.1 = p.2 := by
  induction l generalizing diff with
  | nil => simp
  | cons p l ih =>
    rw [List.foldl_cons, ih, or_eq_zero_iff, UInt8.xor_eq_zero_iff, List.forall_mem_cons, and_assoc]

theorem ctEqBytes_iff {a b : List UInt8} : ctEqBytes a b = true ↔ a = b := by
  unfold ctEqBytes
  split_ifs with hlength
  · refine ⟨fun h => (nomatch h), ?_⟩
    rintro rfl
    exact absurd rfl hlength
  · have hpairs : a = b ↔ ∀ p ∈ a.zip b, p.1 = p.2 := by
      rw [← List.forall₂_eq_eq_eq, List.forall₂_iff_zip]
      exact ⟨fun h p hp => h.2 hp, fun h => ⟨not_not.mp hlength, fun hp => h _ hp⟩⟩
    rw [decide_eq_true_iff, foldl_or_xor_eq_zero, hpairs]
    exact and_iff_right rfl

end Wardex.Lib
