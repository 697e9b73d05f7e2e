import Mathlib.Algebra.Order.Ring.Nat
import Mathlib.Data.List.Lex
import Mathlib.Data.Nat.ModEq
import Mathlib.Data.String.Basic
import Mathlib.Tactic.IntervalCases
import Mathlib.Tactic.Ring

/-! Numbers of a fixed width: in decimal digits, where texts that begin with such numbers are
ordered like the numbers, and in bytes, the most significant byte first. -/

namespace Wardex.Lib

/-- The last `width` decimal digits of the number. -/
def digits : ℕ → ℕ → List Char
  | 0, _ => []
  | width + 1, n => digits width (n / 10) ++ [Nat.digitChar (n % 10)]

@[simp] theorem length_digits (width n : ℕ) : (digits width n).length = width := by
  induction width generalizing n with
  | zero => rfl
  | succ width ih => rw [digits, List.length_append, ih, List.length_singleton]

theorem digits_add (v w n : ℕ) : digits (v + w) n = digits v (n / 10 ^ w) ++ digits w n := by
  induction w generalizing n with
  | zero => rw [Nat.add_zero, Nat.pow_zero, Nat.div_one, digits, List.append_nil]
  | succ w ih =>
    rw [← Nat.add_assoc, digits, ih, digits, List.append_assoc, Nat.div_div_eq_div_mul,
      ← Nat.pow_succ']

theorem digitChar_lt_digitChar {a b : ℕ} (ha : a < 10) (hb : b < 10) :
    Nat.digitChar a < Nat.digitChar b ↔ a < b := by
  interval_cases a <;> interval_cases b <;> decide

theorem digitChar_inj {a b : ℕ} (ha : a < 10) (hb : b < 10) :
    Nat.digitChar a = Nat.digitChar b ↔ a = b := by
  interval_cases a <;> interval_cases b <;> decide

theorem plus_lt_digitChar {a : ℕ} (ha : a < 10) : '+' < Nat.digitChar a := by
  interval_cases a <;> decide

/-- Texts that begin with numbers of one width are ordered by the numbers first. -/
theorem digits_append_lt {width m n : ℕ} {x y : List Char} (hm : m < 10 ^ width)
    (hn : n < 10 ^ width) :
    digits width m ++ x < digits width n ++ y ↔ m < n ∨ m = n ∧ x < y := by
  induction width generalizing m n x y with
  | zero =>
    have hmn : m = n := by
      rw [Nat.pow_zero] at hm hn
      omega
    simp [digits, hmn]
  | succ width ih =>
    have hm' : m / 10 < 10 ^ width := by
      rw [Nat.pow_succ] at hm
      omega
    have hn' : n / 10 < 10 ^ width := by
      rw [Nat.pow_succ] at hn
      omega
    have hmod (k : ℕ) : k % 10 < 10 := Nat.mod_lt k (by decide)
    rw [digits, digits, List.append_assoc, List.append_assoc, ih hm' hn', List.singleton_append,
      List.singleton_append, List.cons_lt_cons_iff, digitChar_lt_digitChar (hmod m) (hmod n),
      digitChar_inj (hmod m) (hmod n)]
    constructor
    · rintro (hlt | ⟨heq, hlt | ⟨hlast, htail⟩⟩)
      · exact Or.inl (by omega)
      · exact Or.inl (by omega)
      · exact Or.inr ⟨by omega, htail⟩
    · rintro (hlt | ⟨rfl, htail⟩)
      · by_cases heq : m / 10 = n / 10
        · exact Or.inr ⟨heq, Or.inl (by omega)⟩
        · exact Or.inl (by omega)
      · exact Or.inr ⟨rfl, Or.inr ⟨rfl, htail⟩⟩

theorem digits_injective {width m n : ℕ} (hm : m < 10 ^ width) (hn : n < 10 ^ width)
    (h : digits width m = digits width n) : m = n := by
  have hlt {a b : ℕ} (ha : a < 10 ^ width) (hb : b < 10 ^ width)
      (hab : digits width a = digits width b) : ¬ a < b := by
    intro hless
    have htexts := (digits_append_lt (x := []) (y := []) ha hb).mpr (Or.inl hless)
    rw [hab] at htexts
    exact lt_irrefl _ htexts
  exact Nat.le_antisymm (Nat.le_of_not_lt (hlt hn hm h.symm)) (Nat.le_of_not_lt (hlt hm hn h))

/-! ### Decimal fractions -/

/-- A fraction of `places` places, given as a multiple of the last of them: with the point, and
without the part of the zeros at the end that `kept` leaves out. -/
def fraction (places kept n : ℕ) : List Char :=
  if kept = 0 then [] else '.' :: digits kept (n / 10 ^ (places - kept))

/-- What is left out are zeros. -/
def Keeps (places kept n : ℕ) : Prop := kept ≤ places ∧ n % 10 ^ (places - kept) = 0

theorem digits_append_lt_plus {width n : ℕ} (h : 0 < width) (x y : List Char) :
    '+' :: x < digits width n ++ y := by
  obtain ⟨width, rfl⟩ := Nat.exists_eq_succ_of_ne_zero (Nat.pos_iff_ne_zero.mp h)
  rw [Nat.succ_eq_add_one, Nat.add_comm, digits_add]
  have hone (k : ℕ) : digits 1 k = [Nat.digitChar (k % 10)] := rfl
  rw [hone, List.append_assoc, List.singleton_append, List.cons_lt_cons_iff]
  exact Or.inl (plus_lt_digitChar (Nat.mod_lt _ (by decide)))

theorem div_lt_of_places {places kept n : ℕ} (hkept : kept ≤ places) (hn : n < 10 ^ places) :
    n / 10 ^ (places - kept) < 10 ^ kept := by
  apply Nat.div_lt_of_lt_mul
  rw [← Nat.pow_add, Nat.sub_add_cancel hkept]
  exact hn

/-- A number cut to fewer places than it keeps. -/
theorem div_places {places kept k n : ℕ} (h : kept + k ≤ places) :
    n / 10 ^ (places - (kept + k)) / 10 ^ k = n / 10 ^ (places - kept) := by
  rw [Nat.div_div_eq_div_mul, ← Nat.pow_add]
  congr 2
  omega

/-- Fractions are ordered like the numbers, also when they keep different numbers of places, if a
plus sign follows them. -/
theorem fraction_append_lt {places p q m n : ℕ} (hp : Keeps places p m) (hq : Keeps places q n)
    (hm : m < 10 ^ places) (hn : n < 10 ^ places) (h : m < n) (x : List Char) :
    fraction places p m ++ '+' :: x < fraction places q n ++ '+' :: x := by
  have hq0 : q ≠ 0 := by
    rintro rfl
    have hzero : n = 0 := by rw [← hq.2, Nat.sub_zero, Nat.mod_eq_of_lt hn]
    omega
  unfold fraction
  rw [if_neg hq0]
  by_cases hp0 : p = 0
  · rw [if_pos hp0, List.nil_append, List.cons_append, List.cons_lt_cons_iff]
    exact Or.inl (by decide)
  · rw [if_neg hp0, List.cons_append, List.cons_append, List.cons_lt_cons_iff]
    refine Or.inr ⟨rfl, ?_⟩
    have hmp := div_lt_of_places hp.1 hm
    have hnq := div_lt_of_places hq.1 hn
    rcases Nat.le_total p q with hpq | hqp
    · obtain ⟨k, rfl⟩ := Nat.exists_eq_add_of_le hpq
      have hcut := div_places (n := n) hq.1
      have hle : m / 10 ^ (places - p) ≤ n / 10 ^ (places - p) :=
        Nat.div_le_div_right (Nat.le_of_lt h)
      rw [digits_add, hcut, List.append_assoc,
        digits_append_lt hmp (div_lt_of_places hp.1 hn)]
      rcases Nat.lt_or_eq_of_le hle with hlt | heq
      · exact Or.inl hlt
      · refine Or.inr ⟨heq, ?_⟩
        by_cases hk : k = 0
        · -- with the same places kept the numbers would be equal
          subst hk
          rw [Nat.add_zero] at hq
          have hmEq := Nat.div_mul_cancel (Nat.dvd_of_mod_eq_zero hp.2)
          have hnEq := Nat.div_mul_cancel (Nat.dvd_of_mod_eq_zero hq.2)
          rw [heq] at hmEq
          omega
        · exact digits_append_lt_plus (Nat.pos_of_ne_zero hk) _ _
    · obtain ⟨k, rfl⟩ := Nat.exists_eq_add_of_le hqp
      have hcut := div_places (n := m) hp.1
      have hle : m / 10 ^ (places - q) ≤ n / 10 ^ (places - q) :=
        Nat.div_le_div_right (Nat.le_of_lt h)
      rw [digits_add, hcut, List.append_assoc,
        digits_append_lt (div_lt_of_places hq.1 hm) hnq]
      refine Or.inl (Nat.lt_of_le_of_ne hle fun heq => ?_)
      have hnEq := Nat.div_mul_cancel (Nat.dvd_of_mod_eq_zero hq.2)
      have hmLe := Nat.div_mul_le_self m (10 ^ (places - q))
      rw [heq] at hmLe
      omega

/-! ## Bytes -/

/-- The lowest `width` bytes of `n`. -/
def bigEndian (width n : Nat) : List UInt8 :=
  (List.range width).reverse.map fun i => UInt8.ofNat (n / 256 ^ i)

/-- The number that goes on from `acc` with the given bytes. -/
def readBigEndian (acc : Nat) (bytes : List UInt8) : Nat :=
  bytes.foldl (fun n b => n * 256 + b.toNat) acc

theorem bigEndian_succ (width n : Nat) :
    bigEndian (width + 1) n = UInt8.ofNat (n / 256 ^ width) :: bigEndian width n := by
  rw [bigEndian, List.range_succ, List.reverse_append]
  rfl

@[simp] theorem length_bigEndian (width n : Nat) : (bigEndian width n).length = width := by
  simp [bigEndian]

theorem readBigEndian_eq_add (acc : Nat) (bytes : List UInt8) :
    readBigEndian acc bytes = acc * 256 ^ bytes.length + readBigEndian 0 bytes := by
  induction bytes generalizing acc with
  | nil => simp [readBigEndian]
  | cons b bytes ih =>
    change readBigEndian (acc * 256 + b.toNat) bytes = _ + readBigEndian (0 * 256 + b.toNat) bytes
    rw [ih, ih (0 * 256 + b.toNat), List.length_cons]
    ring

theorem readBigEndian_bigEndian (width acc n : Nat) :
    readBigEndian acc (bigEndian width n) = acc * 256 ^ width + n % 256 ^ width := by
  induction width generalizing acc with
  | zero => simp [bigEndian, readBigEndian, Nat.mod_one]
  | succ width ih =>
    have hdigit : n % 256 ^ (width + 1) = n % 256 ^ width + 256 ^ width * (n / 256 ^ width % 256) :=
      Nat.mod_pow_succ
    rw [bigEndian_succ]
    change readBigEndian (acc * 256 + (UInt8.ofNat (n / 256 ^ width)).toNat) _ = _
    rw [ih, UInt8.toNat_ofNat', hdigit]
    change (acc * 256 + n / 256 ^ width % 256) * _ + _ = _
    ring

/-- A byte moved into a register of `2 ^ width` values, of which the top ones are lost. -/
theorem shift_or_eq (width n : Nat) (b : UInt8) :
    (n <<< 8) % 2 ^ (width + 8) ||| b.toNat = (n * 256 + b.toNat) % 2 ^ (width + 8) := by
  have hb := b.toNat_lt
  have hshift : (n <<< 8) % 2 ^ (width + 8) = (n % 2 ^ width) <<< 8 := by
    rw [Nat.shiftLeft_eq, Nat.shiftLeft_eq, Nat.pow_add, Nat.mul_mod_mul_right]
  rw [hshift, ← Nat.shiftLeft_add_eq_or_of_lt hb, Nat.shiftLeft_eq, Nat.pow_add,
    Nat.mul_comm (2 ^ width), Nat.mod_mul]
  have hlow : (n * 256 + b.toNat) % 2 ^ 8 = b.toNat := by omega
  have hhigh : (n * 256 + b.toNat) / 2 ^ 8 = n := by omega
  rw [hlow, hhigh]
  ring

theorem foldl_shift_or (width : Nat) (bytes : List UInt8) {acc : Nat} (h : acc < 2 ^ (width + 8)) :
    bytes.foldl (fun n b => (n <<< 8) % 2 ^ (width + 8) ||| b.toNat) acc =
      readBigEndian acc bytes % 2 ^ (width + 8) := by
  induction bytes generalizing acc with
  | nil => exact (Nat.mod_eq_of_lt h).symm
  | cons b bytes ih =>
    have hlt : (acc * 256 + b.toNat) % 2 ^ (width + 8) < 2 ^ (width + 8) :=
      Nat.mod_lt _ (Nat.two_pow_pos _)
    rw [List.foldl_cons, shift_or_eq, ih hlt]
    change _ = readBigEndian (acc * 256 + b.toNat) bytes % _
    rw [readBigEndian_eq_add, readBigEndian_eq_add (acc * 256 + b.toNat)]
    exact ((Nat.mod_modEq _ _).mul_right _).add_right _

end Wardex.Lib
