import Mathlib.Data.List.GetD
import Mathlib.Data.Set.Function
import Mathlib.Tactic.IntervalCases

/-! One-time signatures by revealed secrets: for every position of a digest there are two secrets,
published by their hashes, and a signature reveals the one the digest's bit selects. -/

namespace Wardex.Lib.OneTime

section Scheme

variable {ι α β : Type*} (hash : α → β) (secret : ι → Bool → α)

def reveal (digest : ι → Bool) (i : ι) : α := secret i (digest i)

def Accepts (digest : ι → Bool) (shown : ι → α) : Prop :=
  ∀ i, hash (shown i) = hash (secret i (digest i))

variable {hash secret} {digest other : ι → Bool} {shown : ι → α}

theorem accepts_reveal : Accepts hash secret digest (reveal secret digest) := fun _ => rfl

/-- Where the digests differ the secret asked for is the one that was kept back. -/
theorem not_accepts_of_digest_ne (hinj : Set.InjOn hash {x | ∃ i bit, secret i bit = x})
    (hpairs : ∀ i, secret i false ≠ secret i true) (hne : other ≠ digest) :
    ¬ Accepts hash secret other (reveal secret digest) := by
  intro hacc
  obtain ⟨i, hi⟩ := Function.ne_iff.mp hne
  have hsame : secret i (digest i) = secret i (other i) := hinj ⟨i, _, rfl⟩ ⟨i, _, rfl⟩ (hacc i)
  -- one of the two secrets is revealed and the other asked for, and the pair holds both
  cases hd : digest i with
  | false =>
    have ho : other i = true := Bool.eq_true_of_not_eq_false fun h => hi (h.trans hd.symm)
    rw [hd, ho] at hsame
    exact hpairs i hsame
  | true =>
    have ho : other i = false := Bool.eq_false_of_not_eq_true fun h => hi (h.trans hd.symm)
    rw [hd, ho] at hsame
    exact hpairs i hsame.symm

theorem eq_reveal_of_accepts
    (hinj : Set.InjOn hash {x | (∃ i bit, secret i bit = x) ∨ ∃ i, shown i = x})
    (hacc : Accepts hash secret digest shown) : shown = reveal secret digest := by
  funext i
  exact hinj (.inr ⟨i, rfl⟩) (.inl ⟨i, _, rfl⟩) (hacc i)

end Scheme

/-! ## The bits of a byte string, the high bit of a byte first -/

def bitAt (bytes : List UInt8) (i : ℕ) : UInt8 :=
  (bytes.getD (i / 8) 0 >>> UInt8.ofNat (7 - i % 8)) &&& 1

theorem exists_bit_ne {a b : UInt8} (h : a ≠ b) :
    ∃ k < 8, (a >>> UInt8.ofNat k) &&& 1 ≠ (b >>> UInt8.ofNat k) &&& 1 := by
  by_contra hall
  push Not at hall
  apply h
  apply UInt8.toBitVec_inj.mp
  apply BitVec.eq_of_getLsbD_eq
  intro k hk
  have hbit := congrArg (fun x : UInt8 => x.toBitVec.getLsbD 0) (hall k hk)
  interval_cases k <;> simpa using hbit

theorem and_one_eq_zero_or_one (a : UInt8) : a &&& 1 = 0 ∨ a &&& 1 = 1 := by
  have hle : (a &&& 1).toNat = 0 ∨ (a &&& 1).toNat = 1 := by
    rw [UInt8.toNat_and]
    have h : a.toNat &&& (1 : UInt8).toNat ≤ (1 : UInt8).toNat := Nat.and_le_right
    have hone : (1 : UInt8).toNat = 1 := rfl
    omega
  rcases hle with h | h
  · exact .inl (UInt8.toNat_inj.mp h)
  · exact .inr (UInt8.toNat_inj.mp h)

theorem exists_bitAt_ne {as bs : List UInt8} (hlen : as.length = bs.length) (hne : as ≠ bs) :
    ∃ i < 8 * as.length, bitAt as i ≠ bitAt bs i := by
  have hbyte : ∃ j < as.length, as.getD j 0 ≠ bs.getD j 0 := by
    by_contra hall
    push Not at hall
    refine hne (List.ext_getElem hlen fun j ha hb => ?_)
    have h := hall j ha
    rwa [List.getD_eq_getElem _ _ ha, List.getD_eq_getElem _ _ hb] at h
  obtain ⟨j, hj, hbytes⟩ := hbyte
  obtain ⟨k, hk, hbits⟩ := exists_bit_ne hbytes
  -- the bits of a byte are counted from the highest one
  refine ⟨8 * j + (7 - k), by omega, ?_⟩
  have hdiv : (8 * j + (7 - k)) / 8 = j := by omega
  have hmod : 7 - (8 * j + (7 - k)) % 8 = k := by omega
  rw [bitAt, bitAt, hdiv, hmod]
  exact hbits

end Wardex.Lib.OneTime
