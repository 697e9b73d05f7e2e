import Mathlib.Data.Set.Function
import Mathlib.Logic.Relation
import Wardex.Audit.Chain
import Wardex.Enforcement.Tpm

/-! What the digest of a quote says about its nonce and its registers.  It covers the values in the
order of the selection and then the nonce, with no indices and no lengths. -/

namespace Wardex.Enforcement

open Wardex.Lib Wardex.Audit

variable (sha256 : List UInt8 → Vector UInt8 32)

/-- The entries of a selection that name a register. -/
def named (pcrSelection : List UInt8) : List UInt8 := pcrSelection.filter (· < 24)

/-- Any two quotes over these selections, with nonces of these lengths, that have one digest agree
on the nonce and on the registers. -/
def QuotesAgree (sel sel' : List UInt8) (len len' : Nat) : Prop :=
  ∀ (tpm tpm' : SoftwareTpm) (nonce nonce' : List UInt8) (now now' : UInt64),
    nonce.length = len → nonce'.length = len' →
    Set.InjOn sha256 {tpm.quoteData sel nonce, tpm'.quoteData sel' nonce'} →
    (tpm.quote sha256 sel nonce now).quoteDigest =
      (tpm'.quote sha256 sel' nonce' now').quoteDigest →
    (tpm.quote sha256 sel nonce now).nonce = (tpm'.quote sha256 sel' nonce' now').nonce ∧
      (tpm.quote sha256 sel nonce now).pcrValues = (tpm'.quote sha256 sel' nonce' now').pcrValues

/-- A register of the one device and one of the other, named at the same place. -/
def SamePlace (sel sel' : List UInt8) (x y : UInt8 ⊕ UInt8) : Prop :=
  ∃ i j, (i, j) ∈ (named sel).zip (named sel') ∧ x = .inl i ∧ y = .inr j

/-- The places name a register of both devices so that equal values follow. -/
def Linked (sel sel' : List UInt8) (index : UInt8) : Prop :=
  Relation.EqvGen (SamePlace sel sel') (.inl index) (.inr index)

/-- The bytes covered have other lengths, or the nonces start at the same place and every register
that is named is linked. -/
def Unambiguous (sel sel' : List UInt8) (len len' : Nat) : Prop :=
  32 * (named sel).length + len ≠ 32 * (named sel').length + len' ∨
    len = len' ∧ ∀ index ∈ named sel ++ named sel', Linked sel sel' index

namespace SoftwareTpm

variable (tpm : SoftwareTpm)

/-- The value of a register, with zeros for an index that names none. -/
def register (index : UInt8) : List UInt8 := (tpm.pcrs index).getD zeroRegister

variable {tpm} {sel : List UInt8} {index : UInt8}

theorem length_register : (tpm.register index).length = 32 := by
  unfold register
  cases h : tpm.pcrs index with
  | none => exact List.length_replicate
  | some val => exact tpm.width index val h

theorem pcrs_of_lt (h : index < 24) : tpm.pcrs index = some (tpm.register index) := by
  obtain ⟨val, hval⟩ := Option.isSome_iff_exists.mp ((tpm.banks index).mpr h)
  rw [register, hval, Option.getD_some]

theorem pcrs_of_not_lt (h : ¬ index < 24) : tpm.pcrs index = none := by
  rw [← Option.not_isSome_iff_eq_none, tpm.banks]
  exact h

theorem named_concat (sel : List UInt8) (index : UInt8) :
    named (sel ++ [index]) = if index < 24 then named sel ++ [index] else named sel := by
  unfold named
  rw [List.filter_append]
  split_ifs with h <;> simp [h]

theorem measure_concat (sel : List UInt8) (index : UInt8) :
    tpm.measure (sel ++ [index]) =
      if index < 24 then
        ((tpm.measure sel).1.insert index (hexEncode (tpm.register index)),
          (tpm.measure sel).2 ++ tpm.register index)
      else tpm.measure sel := by
  unfold measure
  rw [List.foldl_concat]
  split_ifs with h
  · rw [pcrs_of_lt h]
  · rw [pcrs_of_not_lt h]

/-- The loop keeps each named register once in the map, and as often as named in the bytes. -/
theorem measure_eq (tpm : SoftwareTpm) (sel : List UInt8) :
    tpm.measure sel =
      (fun index => if index ∈ named sel then some (hexEncode (tpm.register index)) else none,
        (named sel).flatMap tpm.register) := by
  induction sel using List.reverseRecOn with
  | nil => rfl
  | append_singleton sel index ih =>
    rw [measure_concat, ih, named_concat]
    split_ifs with h
    · refine Prod.ext ?_ (by simp)
      funext i
      rcases eq_or_ne i index with rfl | hne
      · simp
      · simp [KeyMap.insert_of_ne _ hne, hne]
    · rfl

end SoftwareTpm

open SoftwareTpm

variable {sha256} {tpm tpm' : SoftwareTpm} {sel sel' : List UInt8}

/-- Values of one width, one after the other, are the same bytes exactly if they are the same place
by place. -/
theorem flatMap_eq_flatMap_iff {α β γ : Type*} {f : α → List γ} {g : β → List γ} {n : ℕ}
    (hf : ∀ a, (f a).length = n) (hg : ∀ b, (g b).length = n) {as : List α} {bs : List β}
    (hlen : as.length = bs.length) :
    as.flatMap f = bs.flatMap g ↔ ∀ a b, (a, b) ∈ as.zip bs → f a = g b := by
  induction as generalizing bs with
  | nil =>
    obtain rfl := List.length_eq_zero_iff.mp hlen.symm
    simp
  | cons a as ih =>
    cases bs with
    | nil => cases hlen
    | cons b bs =>
      have ih := ih (Nat.succ.inj hlen)
      rw [List.flatMap_cons, List.flatMap_cons]
      constructor
      · intro h i j hij
        obtain ⟨hhead, htail⟩ := List.append_inj h ((hf a).trans (hg b).symm)
        rcases List.mem_cons.mp hij with heq | hij
        · obtain ⟨rfl, rfl⟩ := Prod.mk.inj heq
          exact hhead
        · exact ih.mp htail i j hij
      · intro h
        rw [h a b List.mem_cons_self, ih.mpr fun i j hij => h i j (List.mem_cons_of_mem _ hij)]

theorem length_flatMap_register (tpm : SoftwareTpm) (indices : List UInt8) :
    (indices.flatMap tpm.register).length = 32 * indices.length := by
  induction indices with
  | nil => rfl
  | cons index indices ih =>
    rw [List.flatMap_cons, List.length_append, length_register, ih, List.length_cons]
    omega

theorem digestHex_injOn {data data' : List UInt8} (hinj : Set.InjOn sha256 {data, data'})
    (h : digestHex sha256 data = digestHex sha256 data') : data = data' :=
  hinj (Set.mem_insert _ _) (Set.mem_insert_of_mem _ rfl)
    (Vector.toList_inj.mp (hexEncode_injective h))

/-- Nothing that is equal at each place tells two linked registers apart. -/
theorem eq_of_linked {α : Type*} {f : UInt8 ⊕ UInt8 → α}
    (h : ∀ x y, SamePlace sel sel' x y → f x = f y) {index : UInt8}
    (hlinked : Linked sel sel' index) : f (.inl index) = f (.inr index) :=
  congrArg (Quot.lift f h) (Quot.eqvGen_sound hlinked)

theorem mem_named_iff_of_linked {index : UInt8} (h : Linked sel sel' index) :
    index ∈ named sel ↔ index ∈ named sel' := by
  refine iff_of_eq (eq_of_linked (f := Sum.elim (· ∈ named sel) (· ∈ named sel')) ?_ h)
  rintro _ _ ⟨i, j, hij, rfl, rfl⟩
  obtain ⟨hi, hj⟩ := List.of_mem_zip hij
  exact propext (iff_of_true hi hj)

theorem quotesAgree_of_unambiguous {len len' : ℕ} (h : Unambiguous sel sel' len len') :
    QuotesAgree sha256 sel sel' len len' := by
  rintro tpm tpm' nonce nonce' now now' rfl rfl hinj hdigest
  have hdata := digestHex_injOn hinj hdigest
  simp only [quoteData, measure_eq] at hdata
  have hlength := congrArg List.length hdata
  rw [List.length_append, List.length_append, length_flatMap_register,
    length_flatMap_register] at hlength
  rcases h with hne | ⟨hlen, hlinked⟩
  · exact absurd hlength hne
  · obtain ⟨hvalues, hnonce⟩ := List.append_inj' hdata hlen
    have hcount : (named sel).length = (named sel').length := by omega
    have hplaces := (flatMap_eq_flatMap_iff (fun _ => length_register) (fun _ => length_register)
      hcount).mp hvalues
    refine ⟨congrArg hexEncode hnonce, ?_⟩
    funext index
    simp only [quote, measure_eq]
    by_cases hmem : index ∈ named sel
    · have hindex := hlinked index (List.mem_append_left _ hmem)
      have hregister : tpm.register index = tpm'.register index := by
        refine eq_of_linked (f := Sum.elim tpm.register tpm'.register) ?_ hindex
        rintro _ _ ⟨i, j, hij, rfl, rfl⟩
        exact hplaces i j hij
      rw [if_pos hmem, if_pos ((mem_named_iff_of_linked hindex).mp hmem), hregister]
    · have hmem' : index ∉ named sel' := fun hmem' =>
        hmem ((mem_named_iff_of_linked (hlinked index (List.mem_append_right _ hmem'))).mpr hmem')
      rw [if_neg hmem, if_neg hmem']

/-! ## Selections that are not unambiguous -/

open Classical in
/-- The registers that satisfy `S` hold ones, the others zeros. -/
noncomputable def marked (S : UInt8 → Prop) : SoftwareTpm where
  pcrs index := if index < 24 then
    some (if S index then List.replicate 32 1 else zeroRegister) else none
  sealedStore := .empty
  endorsementKey := []
  banks index := by
    by_cases h : index < 24
    · rw [if_pos h]
      exact iff_of_true rfl h
    · rw [if_neg h]
      exact iff_of_false Bool.false_ne_true h
  width index register h := by
    split_ifs at h <;> obtain rfl := Option.some.inj h <;> exact List.length_replicate

theorem register_marked {S : UInt8 → Prop} {index : UInt8} (hindex : index < 24) :
    (S index → (marked S).register index = List.replicate 32 1) ∧
      (¬ S index → (marked S).register index = zeroRegister) := by
  unfold register marked
  simp only [if_pos hindex, Option.getD_some]
  exact ⟨fun h => if_pos h, fun h => if_neg h⟩

theorem lt_of_mem_named {index : UInt8} (h : index ∈ named sel) : index < 24 :=
  of_decide_eq_true (List.mem_filter.mp h).2

/-- One digest for zeros only, with the nonce starting at another place. -/
theorem length_eq_of_quotesAgree {len len' : ℕ} (h : QuotesAgree sha256 sel sel' len len')
    (hlength : 32 * (named sel).length + len = 32 * (named sel').length + len') : len = len' := by
  have hzeros (indices : List UInt8) (n : ℕ) (hindices : ∀ i ∈ indices, i < 24) :
      indices.flatMap (marked fun _ => False).register ++ List.replicate n 0 =
        List.replicate (32 * indices.length + n) 0 := by
    apply List.eq_replicate_iff.mpr
    refine ⟨by rw [List.length_append, length_flatMap_register, List.length_replicate], ?_⟩
    intro b hb
    rcases List.mem_append.mp hb with hb | hb
    · obtain ⟨i, hi, hb⟩ := List.mem_flatMap.mp hb
      rw [(register_marked (hindices i hi)).2 not_false] at hb
      exact (List.mem_replicate.mp hb).2
    · exact (List.mem_replicate.mp hb).2
  have hdata : (marked fun _ => False).quoteData sel (List.replicate len 0) =
      (marked fun _ => False).quoteData sel' (List.replicate len' 0) := by
    simp only [quoteData, measure_eq]
    rw [hzeros _ _ fun _ => lt_of_mem_named, hzeros _ _ fun _ => lt_of_mem_named, hlength]
  have hagree := h (marked fun _ => False) (marked fun _ => False) (List.replicate len 0)
    (List.replicate len' 0) 0 0 List.length_replicate List.length_replicate
    (by rw [hdata, Set.pair_eq_singleton]; exact Set.injOn_singleton _ _)
    (congrArg (digestHex sha256) hdata)
  have hnonce := congrArg List.length (hexEncode_injective hagree.1)
  rwa [List.length_replicate, List.length_replicate] at hnonce

/-- Ones in what is linked to a register, zeros in all others. -/
theorem linked_of_quotesAgree {len : ℕ} (h : QuotesAgree sha256 sel sel' len len)
    (hcount : (named sel).length = (named sel').length) {index : UInt8}
    (hindex : index ∈ named sel ++ named sel') : Linked sel sel' index := by
  by_contra hlinked
  let S (x : UInt8 ⊕ UInt8) : Prop := Relation.EqvGen (SamePlace sel sel') (.inl index) x
  have hplaces : ∀ i j, (i, j) ∈ (named sel).zip (named sel') →
      (marked fun i => S (.inl i)).register i = (marked fun j => S (.inr j)).register j := by
    intro i j hij
    obtain ⟨hi, hj⟩ := List.of_mem_zip hij
    have hsame : Relation.EqvGen (SamePlace sel sel') (.inl i) (.inr j) :=
      .rel _ _ ⟨i, j, hij, rfl, rfl⟩
    by_cases hS : S (.inl i)
    · rw [(register_marked (lt_of_mem_named hi)).1 hS,
        (register_marked (lt_of_mem_named hj)).1 (hS.trans _ _ _ hsame)]
    · have hS' : ¬ S (.inr j) := fun hS' => hS (hS'.trans _ _ _ hsame.symm)
      rw [(register_marked (lt_of_mem_named hi)).2 hS, (register_marked (lt_of_mem_named hj)).2 hS']
  have hvalues := (flatMap_eq_flatMap_iff (fun _ => length_register) (fun _ => length_register)
    hcount).mpr hplaces
  have hdata : (marked fun i => S (.inl i)).quoteData sel (List.replicate len 0) =
      (marked fun j => S (.inr j)).quoteData sel' (List.replicate len 0) := by
    simp only [quoteData, measure_eq]
    rw [hvalues]
  have hagree := congrFun (h _ _ _ _ 0 0 List.length_replicate List.length_replicate
    (by rw [hdata, Set.pair_eq_singleton]; exact Set.injOn_singleton _ _)
    (congrArg (digestHex sha256) hdata)).2 index
  simp only [quote, measure_eq] at hagree
  have hlt : index < 24 := by
    rcases List.mem_append.mp hindex with hmem | hmem <;> exact lt_of_mem_named hmem
  rw [(register_marked hlt).1 (.refl _),
    (register_marked (S := fun j => S (.inr j)) hlt).2 hlinked] at hagree
  by_cases hmem : index ∈ named sel
  · rw [if_pos hmem] at hagree
    split_ifs at hagree
    exact absurd (hexEncode_injective (Option.some.inj hagree)) (by decide)
  · have hmem' := (List.mem_append.mp hindex).resolve_left hmem
    rw [if_neg hmem, if_pos hmem'] at hagree
    cases hagree

/-- **When quotes are unambiguous.**  For two selections and two lengths of nonces, quotes with one
digest agree on the nonce and on the registers, whatever these are, if and only if the bytes covered
have other lengths, or the nonces have one length and every register named is linked. -/
theorem quotesAgree_iff (sel sel' : List UInt8) (len len' : ℕ) :
    QuotesAgree sha256 sel sel' len len' ↔ Unambiguous sel sel' len len' := by
  refine ⟨fun h => ?_, quotesAgree_of_unambiguous⟩
  by_cases hlength : 32 * (named sel).length + len = 32 * (named sel').length + len'
  · obtain rfl := length_eq_of_quotesAgree h hlength
    exact Or.inr ⟨rfl, fun index hindex => linked_of_quotesAgree h (by omega) hindex⟩
  · exact Or.inl hlength

/-- A register of a fresh device passes for another, and for the start of a nonce. -/
theorem registers_confused :
    ((SoftwareTpm.new lengthDigest).quote lengthDigest [0] [5] 0).quoteDigest =
        ((SoftwareTpm.new lengthDigest).quote lengthDigest [1] [5] 0).quoteDigest ∧
      ((SoftwareTpm.new lengthDigest).quote lengthDigest [0] [5] 0).pcrValues ≠
        ((SoftwareTpm.new lengthDigest).quote lengthDigest [1] [5] 0).pcrValues ∧
      ((SoftwareTpm.new lengthDigest).quote lengthDigest [0] [5] 0).quoteDigest =
        ((SoftwareTpm.new lengthDigest).quote lengthDigest [] (zeroRegister ++ [5])
          0).quoteDigest ∧
      ((SoftwareTpm.new lengthDigest).quote lengthDigest [0] [5] 0).nonce ≠
        ((SoftwareTpm.new lengthDigest).quote lengthDigest [] (zeroRegister ++ [5]) 0).nonce := by
  refine ⟨rfl, fun h => ?_, rfl, fun h => ?_⟩
  · have hkey : some (hexEncode zeroRegister) = none := congrFun h 0
    cases hkey
  · exact absurd (hexEncode_injective h) (by decide)

/-! ## One selection -/

theorem unambiguous_self (sel : List UInt8) (len : ℕ) : Unambiguous sel sel len len := by
  have hzip (indices : List UInt8) : indices.zip indices = indices.map fun i => (i, i) := by
    rw [List.zip_eq_zipWith, List.zipWith_self]
  refine Or.inr ⟨rfl, fun index hindex => .rel _ _ ⟨index, index, ?_, rfl, rfl⟩⟩
  rw [hzip, List.mem_map]
  exact ⟨index, (List.mem_append.mp hindex).elim id id, rfl⟩

/-- The quotes made at boot are over one selection and have nonces of one length. -/
theorem bootAttest_agree {binary binary' config config' timestamp timestamp' : String}
    {nonce nonce' : Vector UInt8 16} {now now' : UInt64}
    (hinj : Set.InjOn sha256
      {(tpm.bootAttest sha256 binary config timestamp nonce now).1.quoteData [0, 1, 7] nonce.toList,
        (tpm'.bootAttest sha256 binary' config' timestamp' nonce' now').1.quoteData [0, 1, 7]
          nonce'.toList})
    (h : (tpm.bootAttest sha256 binary config timestamp nonce now).2.quoteDigest =
      (tpm'.bootAttest sha256 binary' config' timestamp' nonce' now').2.quoteDigest) :
    (tpm.bootAttest sha256 binary config timestamp nonce now).2.nonce =
        (tpm'.bootAttest sha256 binary' config' timestamp' nonce' now').2.nonce ∧
      (tpm.bootAttest sha256 binary config timestamp nonce now).2.pcrValues =
        (tpm'.bootAttest sha256 binary' config' timestamp' nonce' now').2.pcrValues :=
  quotesAgree_of_unambiguous (unambiguous_self [0, 1, 7] 16) _ _ _ _ _ _ Vector.length_toList
    Vector.length_toList hinj h

end Wardex.Enforcement
