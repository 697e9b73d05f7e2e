import Mathlib.Order.Fin.Basic
import Wardex.Audit.Chain
import Wardex.Lib.Decimal
import Wardex.Lib.Delimited
import Wardex.Lib.KeyMap
import Wardex.Lib.OneTime
import Wardex.Lib.Run
import Wardex.Spool.EncryptedSpool

/-! Lamport one-time signatures over the bits of a SHA-256 digest.  SHA-256 itself is a parameter on
byte strings, and a panic is `none`. -/

namespace Wardex.Quantum

open Wardex.Lib Wardex.Audit Wardex.Spool

structure LamportPrivateKey where
  pairs : List (String × String)
  keyId : String
  used : Bool
deriving DecidableEq

structure LamportPublicKey where
  pairs : List (String × String)
  keyId : String
deriving DecidableEq

structure LamportSignature where
  revealed : List String
  keyId : String
deriving DecidableEq

section Signatures

variable (sha256 : List UInt8 → List UInt8)

def LamportPrivateKey.publicKey (self : LamportPrivateKey) : LamportPublicKey where
  pairs := self.pairs.map fun (zero, one) =>
    let h0 := sha256Hex sha256 (asBytes zero)
    let h1 := sha256Hex sha256 (asBytes one)
    (h0, h1)
  keyId := self.keyId

/-- The digest of a message, read back from its hexadecimal text. -/
def hashBytes (message : List UInt8) : List UInt8 :=
  let msgHash := sha256Hex sha256 message
  match hexDecode (asBytes msgHash) with
  | .ok bytes => bytes
  | .error _ => List.replicate 32 0

/-- The half of pair `i` that bit `i` of the digest selects. -/
def selected (hashBytes : List UInt8) (pairs : List (String × String)) (i : Nat) :
    Option String := do
  let byteIdx := i / 8
  let bitIdx := 7 - i % 8
  let byte ← hashBytes[byteIdx]?
  let bit := (byte >>> UInt8.ofNat bitIdx) &&& 1
  let pair ← pairs[i]?
  if bit = 0 then some pair.1 else some pair.2

def LamportPrivateKey.sign (self : LamportPrivateKey) (message : List UInt8) :
    Option (LamportSignature × LamportPrivateKey) :=
  if self.used then none
  else do
    let revealed ← (List.range 256).mapM (selected (hashBytes sha256 message) self.pairs)
    some ({ revealed, keyId := self.keyId }, { self with used := true })

/-- The loop over the positions, left at the first that does not match. -/
def LamportPublicKey.verifyFrom (self : LamportPublicKey) (hashBytes : List UInt8)
    (signature : LamportSignature) : List Nat → Option Bool
  | [] => some true
  | i :: positions => do
    let revealed ← signature.revealed[i]?
    let hashedRevealed := sha256Hex sha256 (asBytes revealed)
    let expected ← selected hashBytes self.pairs i
    if hashedRevealed ≠ expected then some false
    else self.verifyFrom hashBytes signature positions

def LamportPublicKey.verify (self : LamportPublicKey) (message : List UInt8)
    (signature : LamportSignature) : Option Bool :=
  if signature.revealed.length ≠ 256 ∨ self.pairs.length ≠ 256 then some false
  else if signature.keyId ≠ self.keyId then some false
  else self.verifyFrom sha256 (hashBytes sha256 message) signature (List.range 256)

/-- The preimages of a private key. -/
def LamportPrivateKey.preimages (self : LamportPrivateKey) : List String :=
  self.pairs.flatMap fun (zero, one) => [zero, one]

/-- The byte strings of a list of texts. -/
def bytesOf (texts : List String) : Set (List UInt8) := {x | ∃ s ∈ texts, asBytes s = x}

end Signatures

/-! ## The digest and the halves it selects -/

section Halves

variable {sha256 : List UInt8 → List UInt8}

theorem hashBytes_eq (message : List UInt8) : hashBytes sha256 message = sha256 message := by
  rw [hashBytes, sha256Hex, hexDecode_hexEncode]

/-- Bit `i` of the bytes as a truth value. -/
def digestBit (bytes : List UInt8) (i : Fin 256) : Bool := decide (OneTime.bitAt bytes i ≠ 0)

/-- One half of pair `i`. -/
def half (pairs : List (String × String)) (i : Fin 256) (bit : Bool) : String :=
  let pair := pairs.getD i ("", "")
  if bit then pair.2 else pair.1

theorem selected_eq {bytes : List UInt8} {pairs : List (String × String)}
    (hbytes : bytes.length = 32) (hpairs : pairs.length = 256) (i : Fin 256) :
    selected bytes pairs i = some (half pairs i (digestBit bytes i)) := by
  have hi : i.val / 8 < bytes.length := by omega
  have hip : i.val < pairs.length := by omega
  have hbit : OneTime.bitAt bytes i = (bytes[i.val / 8] >>> UInt8.ofNat (7 - i.val % 8)) &&& 1 := by
    rw [OneTime.bitAt, List.getD_eq_getElem _ _ hi]
  have hpair : pairs.getD i ("", "") = pairs[i.val] := List.getD_eq_getElem _ _ hip
  simp only [selected, List.getElem?_eq_getElem hi, List.getElem?_eq_getElem hip,
    Option.bind_eq_bind, Option.bind_some, digestBit, half, hbit, hpair]
  by_cases hzero : (bytes[i.val / 8] >>> UInt8.ofNat (7 - i.val % 8)) &&& 1 = 0
  · rw [if_pos hzero]
    simp [hzero]
  · rw [if_neg hzero]
    simp [hzero]

/-- Digests that differ differ at some position. -/
theorem digestBit_ne {as bs : List UInt8} (ha : as.length = 32) (hb : bs.length = 32)
    (hne : as ≠ bs) : digestBit as ≠ digestBit bs := by
  obtain ⟨i, hi, hbits⟩ := OneTime.exists_bitAt_ne (ha.trans hb.symm) hne
  intro h
  have hsame := congrFun h ⟨i, by omega⟩
  simp only [digestBit, decide_eq_decide, ne_eq, not_iff_not] at hsame
  -- a bit is zero or one, so that bits that are both zero or both not are the same
  rcases OneTime.and_one_eq_zero_or_one (as.getD (i / 8) 0 >>> UInt8.ofNat (7 - i % 8)) with h0 | h1
  · exact hbits (h0.trans (hsame.mp h0).symm)
  · rcases OneTime.and_one_eq_zero_or_one (bs.getD (i / 8) 0 >>> UInt8.ofNat (7 - i % 8)) with
      h0 | h1'
    · exact hbits ((hsame.mpr h0).trans h0.symm)
    · exact hbits (h1.trans h1'.symm)

theorem half_mem {pairs : List (String × String)} (hpairs : pairs.length = 256) (i : Fin 256) :
    ∃ pair ∈ pairs, ∀ bit, half pairs i bit = if bit then pair.2 else pair.1 := by
  have hi : i.val < pairs.length := by omega
  refine ⟨pairs[i.val], List.getElem_mem hi, fun bit => ?_⟩
  rw [half, List.getD_eq_getElem _ _ hi]

end Halves

/-! ## Signing -/

section Signing

variable {sha256 : List UInt8 → List UInt8} {key : LamportPrivateKey}

theorem mapM_selected {bytes : List UInt8} {pairs : List (String × String)}
    (hbytes : bytes.length = 32) (hpairs : pairs.length = 256) (positions : List (Fin 256)) :
    (positions.map Fin.val).mapM (selected bytes pairs) =
      some (positions.map fun i => half pairs i (digestBit bytes i)) := by
  induction positions with
  | nil => rfl
  | cons i positions ih =>
    rw [List.map_cons, List.mapM_cons, selected_eq hbytes hpairs, ih]
    rfl

/-- What a fresh key signs, position by position. -/
def signature (sha256 : List UInt8 → List UInt8) (key : LamportPrivateKey) (message : List UInt8) :
    LamportSignature where
  revealed := (List.finRange 256).map fun i => half key.pairs i (digestBit (sha256 message) i)
  keyId := key.keyId

theorem sign_eq (hsha : ∀ data, (sha256 data).length = 32) (hpairs : key.pairs.length = 256)
    (message : List UInt8) :
    key.sign sha256 message =
      if key.used then none
      else some (signature sha256 key message, { key with used := true }) := by
  rw [LamportPrivateKey.sign, hashBytes_eq, ← List.map_coe_finRange_eq_range,
    mapM_selected (hsha message) hpairs]
  rfl

theorem getElem?_signature (message : List UInt8) (i : Fin 256) :
    (signature sha256 key message).revealed[i.val]? =
      some (half key.pairs i (digestBit (sha256 message) i)) := by
  rw [signature, List.getElem?_map, List.getElem?_eq_getElem (by simp [i.isLt])]
  simp

end Signing

/-! ## Verification -/

section Verification

variable {sha256 : List UInt8 → List UInt8} {key : LamportPrivateKey} {sig : LamportSignature}

/-- The revealed text at a position. -/
def shown (sig : LamportSignature) (i : Fin 256) : String := sig.revealed.getD i ""

/-- The secrets of the key as the hash reads them. -/
def secret (key : LamportPrivateKey) (i : Fin 256) (bit : Bool) : List UInt8 :=
  asBytes (half key.pairs i bit)

theorem half_publicKey (hpairs : key.pairs.length = 256) (i : Fin 256) (bit : Bool) :
    half (key.publicKey sha256).pairs i bit = sha256Hex sha256 (secret key i bit) := by
  have hi : i.val < key.pairs.length := by omega
  rw [secret, half, half, LamportPrivateKey.publicKey, List.getD_eq_getElem _ _ hi,
    List.getD_eq_getElem _ _ (by rwa [List.length_map]), List.getElem_map]
  cases bit <;> rfl

theorem sha256Hex_eq_iff {a b : List UInt8} :
    sha256Hex sha256 a = sha256Hex sha256 b ↔ sha256 a = sha256 b :=
  hexEncode_injective.eq_iff

theorem verifyFrom_eq (hsha : ∀ data, (sha256 data).length = 32) (hpairs : key.pairs.length = 256)
    (hsig : sig.revealed.length = 256) (message : List UInt8) (positions : List (Fin 256)) :
    (key.publicKey sha256).verifyFrom sha256 (sha256 message) sig (positions.map Fin.val) =
      some (decide (∀ i ∈ positions, sha256 (asBytes (shown sig i)) =
        sha256 (secret key i (digestBit (sha256 message) i)))) := by
  have hpub : (key.publicKey sha256).pairs.length = 256 := by
    rw [LamportPrivateKey.publicKey, List.length_map, hpairs]
  induction positions with
  | nil => simp [LamportPublicKey.verifyFrom]
  | cons i positions ih =>
    have hi : i.val < sig.revealed.length := by omega
    have hshown : sig.revealed[i.val]? = some (shown sig i) := by
      rw [shown, List.getElem?_eq_getElem hi, List.getD_eq_getElem _ _ hi]
    rw [List.map_cons, LamportPublicKey.verifyFrom, hshown,
      selected_eq (hsha message) hpub, half_publicKey hpairs]
    simp only [Option.bind_eq_bind, Option.bind_some, ne_eq, sha256Hex_eq_iff,
      List.forall_mem_cons]
    -- the source returns at the first element whose hash is not the one of the key
    by_cases hsame : sha256 (asBytes (shown sig i)) =
        sha256 (secret key i (digestBit (sha256 message) i))
    · rw [if_neg (not_not.mpr hsame), ih]
      simp [hsame]
    · rw [if_pos hsame]
      simp [hsame]

/-- A signature of the right form verifies exactly when the one-time scheme accepts it. -/
theorem verify_eq_true_iff (hsha : ∀ data, (sha256 data).length = 32)
    (hpairs : key.pairs.length = 256) (message : List UInt8) :
    (key.publicKey sha256).verify sha256 message sig = some true ↔
      sig.revealed.length = 256 ∧ sig.keyId = key.keyId ∧
        OneTime.Accepts sha256 (secret key) (digestBit (sha256 message))
          fun i => asBytes (shown sig i) := by
  have hpub : (key.publicKey sha256).pairs.length = 256 := by
    rw [LamportPrivateKey.publicKey, List.length_map, hpairs]
  have hid : (key.publicKey sha256).keyId = key.keyId := rfl
  rw [LamportPublicKey.verify, hashBytes_eq, hpub, hid]
  by_cases hsig : sig.revealed.length = 256
  · rw [if_neg (by simp [hsig]), ← List.map_coe_finRange_eq_range,
      verifyFrom_eq hsha hpairs hsig]
    by_cases hkey : sig.keyId = key.keyId
    · rw [if_neg (not_not.mpr hkey)]
      simp [hsig, hkey, OneTime.Accepts]
    · rw [if_pos hkey]
      simp [hkey]
  · rw [if_pos (.inl hsig)]
    simp [hsig]

/-- Verification under a whole key never panics. -/
theorem verify_ne_none (hsha : ∀ data, (sha256 data).length = 32)
    (hpairs : key.pairs.length = 256) (message : List UInt8) :
    (key.publicKey sha256).verify sha256 message sig ≠ none := by
  rw [LamportPublicKey.verify, hashBytes_eq, ← List.map_coe_finRange_eq_range]
  split_ifs with hlen hkey
  · exact Option.some_ne_none _
  · exact Option.some_ne_none _
  · rw [verifyFrom_eq hsha hpairs (by omega)]
    exact Option.some_ne_none _

theorem verify_eq_false_iff (hsha : ∀ data, (sha256 data).length = 32)
    (hpairs : key.pairs.length = 256) (message : List UInt8) :
    (key.publicKey sha256).verify sha256 message sig = some false ↔
      (key.publicKey sha256).verify sha256 message sig ≠ some true := by
  obtain ⟨answer, hanswer⟩ := Option.ne_none_iff_exists'.mp
    (verify_ne_none hsha hpairs message)
  rw [hanswer]
  cases answer <;> simp

end Verification

/-! ## What a signature proves -/

section Unforgeable

variable {sha256 : List UInt8 → List UInt8} {key : LamportPrivateKey}

theorem mem_preimages {s : String} :
    s ∈ key.preimages ↔ ∃ pair ∈ key.pairs, s = pair.1 ∨ s = pair.2 := by
  simp [LamportPrivateKey.preimages]

theorem half_mem_preimages (hpairs : key.pairs.length = 256) (i : Fin 256) (bit : Bool) :
    half key.pairs i bit ∈ key.preimages := by
  obtain ⟨pair, hpair, hhalf⟩ := half_mem hpairs i
  rw [hhalf]
  cases bit
  · exact mem_preimages.mpr ⟨pair, hpair, .inl rfl⟩
  · exact mem_preimages.mpr ⟨pair, hpair, .inr rfl⟩

theorem shown_signature (message : List UInt8) :
    (fun i => asBytes (shown (signature sha256 key message) i)) =
      OneTime.reveal (secret key) (digestBit (sha256 message)) := by
  funext i
  rw [shown, List.getD_eq_getElem?_getD, getElem?_signature]
  rfl

theorem length_signature (message : List UInt8) :
    (signature sha256 key message).revealed.length = 256 := by
  rw [signature, List.length_map, List.length_finRange]

theorem verify_signature (hsha : ∀ data, (sha256 data).length = 32)
    (hpairs : key.pairs.length = 256) (message : List UInt8) :
    (key.publicKey sha256).verify sha256 message (signature sha256 key message) = some true := by
  rw [verify_eq_true_iff hsha hpairs, shown_signature]
  exact ⟨length_signature message, rfl, OneTime.accepts_reveal⟩

/-- The revealed halves do not answer for a message of another digest. -/
theorem verify_other_message (hsha : ∀ data, (sha256 data).length = 32)
    (hpairs : key.pairs.length = 256) (hdistinct : ∀ pair ∈ key.pairs, pair.1 ≠ pair.2)
    (hinj : Set.InjOn sha256 (bytesOf key.preimages)) {message other : List UInt8}
    (hother : sha256 other ≠ sha256 message) :
    (key.publicKey sha256).verify sha256 other (signature sha256 key message) = some false := by
  rw [verify_eq_false_iff hsha hpairs, Ne, verify_eq_true_iff hsha hpairs, shown_signature]
  rintro ⟨-, -, haccepts⟩
  refine OneTime.not_accepts_of_digest_ne ?_ ?_ (digestBit_ne (hsha other) (hsha message) hother)
    haccepts
  · refine hinj.mono ?_
    rintro _ ⟨i, bit, rfl⟩
    exact ⟨_, half_mem_preimages hpairs i bit, rfl⟩
  · intro i hsame
    obtain ⟨pair, hpair, hhalf⟩ := half_mem hpairs i
    have hhalves := asBytes_injective hsame
    rw [hhalf, hhalf] at hhalves
    exact hdistinct pair hpair hhalves

theorem revealed_eq_of_shown {a b : LamportSignature} (ha : a.revealed.length = 256)
    (hb : b.revealed.length = 256) (h : ∀ i, shown a i = shown b i) : a.revealed = b.revealed := by
  refine List.ext_getElem (ha.trans hb.symm) fun i hi hj => ?_
  have hshown := h ⟨i, by omega⟩
  rwa [shown, shown, List.getD_eq_getElem _ _ hi, List.getD_eq_getElem _ _ hj] at hshown

/-- Among the values the hash tells apart, only the signature itself verifies. -/
theorem verify_changed (hsha : ∀ data, (sha256 data).length = 32)
    (hpairs : key.pairs.length = 256) {message : List UInt8} {changed : LamportSignature}
    (hinj : Set.InjOn sha256 (bytesOf (key.preimages ++ changed.revealed)))
    (hne : changed.revealed ≠ (signature sha256 key message).revealed) :
    (key.publicKey sha256).verify sha256 message changed = some false := by
  rw [verify_eq_false_iff hsha hpairs, Ne, verify_eq_true_iff hsha hpairs]
  rintro ⟨hlen, -, haccepts⟩
  -- an element that is accepted has the digest of the half it stands for, and so is that half
  have hshown := OneTime.eq_reveal_of_accepts (hinj.mono ?_) haccepts
  · rw [← shown_signature] at hshown
    exact hne (revealed_eq_of_shown hlen (length_signature message) fun i =>
      asBytes_injective (congrFun hshown i))
  · rintro _ (⟨i, bit, rfl⟩ | ⟨i, rfl⟩)
    · exact ⟨_, List.mem_append_left _ (half_mem_preimages hpairs i bit), rfl⟩
    · refine ⟨_, List.mem_append_right _ ?_, rfl⟩
      rw [shown, List.getD_eq_getElem _ _ (by omega)]
      exact List.getElem_mem _

theorem verify_other_key (hsha : ∀ data, (sha256 data).length = 32)
    (hpairs : key.pairs.length = 256) {message : List UInt8} {changed : LamportSignature}
    (hid : changed.keyId ≠ key.keyId) :
    (key.publicKey sha256).verify sha256 message changed = some false := by
  rw [verify_eq_false_iff hsha hpairs, Ne, verify_eq_true_iff hsha hpairs]
  rintro ⟨-, hsame, -⟩
  exact hid hsame

/-- A key signs once; the signature verifies, and nothing else does among the values the hash tells
apart. -/
theorem sign_verify (hsha : ∀ data, (sha256 data).length = 32) (hpairs : key.pairs.length = 256)
    (message : List UInt8) :
    (key.used = true → key.sign sha256 message = none) ∧
    (key.used = false → ∃ sig, key.sign sha256 message = some (sig, { key with used := true }) ∧
      (key.publicKey sha256).verify sha256 message sig = some true ∧
      ((∀ pair ∈ key.pairs, pair.1 ≠ pair.2) → Set.InjOn sha256 (bytesOf key.preimages) →
        ∀ other, sha256 other ≠ sha256 message →
          (key.publicKey sha256).verify sha256 other sig = some false) ∧
      (∀ changed : LamportSignature,
        Set.InjOn sha256 (bytesOf (key.preimages ++ changed.revealed)) →
          changed.revealed ≠ sig.revealed →
            (key.publicKey sha256).verify sha256 message changed = some false) ∧
      ∀ changed : LamportSignature, changed.keyId ≠ sig.keyId →
        (key.publicKey sha256).verify sha256 message changed = some false) := by
  constructor
  · intro hused
    rw [sign_eq hsha hpairs, if_pos hused]
  · intro hfresh
    refine ⟨signature sha256 key message, ?_, verify_signature hsha hpairs message, ?_, ?_, ?_⟩
    · rw [sign_eq hsha hpairs, hfresh]
      rfl
    · intro hdistinct hinj other hother
      exact verify_other_message hsha hpairs hdistinct hinj hother
    · intro changed hinj hne
      exact verify_changed hsha hpairs hinj hne
    · intro changed hid
      exact verify_other_key hsha hpairs hid

/-! ### A key of one pair, repeated -/

/-- SHA-256 at the texts and messages of an example, and zeros elsewhere. -/
def tableSha (data : List UInt8) : List UInt8 :=
  if data = asBytes "00" then
    [241, 83, 67, 146, 39, 155, 221, 191, 157, 67, 221, 232, 112, 28, 181, 190, 20, 184, 47,
      118, 236, 102, 7, 191, 141, 106, 213, 87, 246, 15, 48, 78]
  else if data = asBytes "01" then
    [147, 141, 184, 201, 248, 44, 140, 181, 141, 63, 62, 244, 253, 37, 0, 54, 164, 141, 38,
      167, 18, 117, 61, 47, 222, 90, 189, 3, 168, 92, 171, 244]
  else if data = asBytes "02" then
    [169, 83, 240, 154, 27, 107, 103, 37, 184, 25, 86, 233, 173, 11, 30, 180, 158, 58, 212, 0,
      4, 192, 67, 7, 239, 138, 246, 36, 106, 5, 65, 22]
  else if data = [] then
    [227, 176, 196, 66, 152, 252, 28, 20, 154, 251, 244, 200, 153, 111, 185, 36, 39, 174, 65,
      228, 100, 155, 147, 76, 164, 149, 153, 27, 120, 82, 184, 85]
  else if data = [109] then
    [98, 198, 106, 122, 93, 215, 12, 49, 70, 97, 128, 99, 195, 68, 229, 49, 230, 212, 181,
      158, 55, 152, 8, 68, 60, 233, 98, 179, 171, 214, 60, 90]
  else List.replicate 32 0

def repeatedKey : LamportPrivateKey where
  pairs := List.replicate 256 ("00", "01")
  keyId := "k1"
  used := false

theorem mem_preimages_repeatedKey {s : String} (h : s ∈ repeatedKey.preimages) :
    s = "00" ∨ s = "01" := by
  obtain ⟨pair, hpair, hs⟩ := mem_preimages.mp h
  rwa [(List.mem_replicate.mp hpair).2] at hs

def changedSignature : LamportSignature := ⟨List.replicate 256 "02", "k1"⟩

theorem tableSha_injOn :
    Set.InjOn tableSha (bytesOf (repeatedKey.preimages ++ changedSignature.revealed)) := by
  have hcases : ∀ x ∈ bytesOf (repeatedKey.preimages ++ changedSignature.revealed),
      x ∈ ["00", "01", "02"].map asBytes := by
    rintro _ ⟨s, hs, rfl⟩
    refine List.mem_map_of_mem ?_
    rcases List.mem_append.mp hs with hs | hs
    · rcases mem_preimages_repeatedKey hs with rfl | rfl <;> decide
    · rw [List.eq_of_mem_replicate hs]
      decide
  have hdistinct : ∀ x ∈ ["00", "01", "02"].map asBytes, ∀ y ∈ ["00", "01", "02"].map asBytes,
      tableSha x = tableSha y → x = y := by decide
  intro x hx y hy h
  exact hdistinct x (hcases x hx) y (hcases y hy) h

theorem length_tableSha (data : List UInt8) : (tableSha data).length = 32 := by
  unfold tableSha
  split_ifs <;> rfl

theorem sign_verify_repeated : ∃ sig,
    repeatedKey.sign tableSha [] = some (sig, { repeatedKey with used := true }) ∧
      (repeatedKey.publicKey tableSha).verify tableSha [] sig = some true ∧
      (repeatedKey.publicKey tableSha).verify tableSha [109] sig = some false ∧
      (repeatedKey.publicKey tableSha).verify tableSha [] changedSignature = some false := by
  have hpairs : repeatedKey.pairs.length = 256 := List.length_replicate
  obtain ⟨-, hfresh⟩ := sign_verify length_tableSha hpairs []
  obtain ⟨sig, hsign, htrue, hother, hchanged, -⟩ := hfresh rfl
  refine ⟨sig, hsign, htrue, hother ?_ ?_ [109] (by decide), hchanged _ tableSha_injOn ?_⟩
  · intro pair hpair
    rw [(List.mem_replicate.mp hpair).2]
    decide
  · refine tableSha_injOn.mono ?_
    rintro x ⟨s, hs, hx⟩
    exact ⟨s, List.mem_append_left _ hs, hx⟩
  · -- the first element revealed is half of the first pair
    rw [sign_eq length_tableSha hpairs, if_neg (by decide)] at hsign
    obtain ⟨rfl, -⟩ := Prod.mk.inj (Option.some.inj hsign)
    intro hsame
    have hfirst : (signature tableSha repeatedKey []).revealed[0]? = some _ :=
      getElem?_signature [] 0
    rw [← hsame, changedSignature, List.getElem?_replicate, if_pos (by decide)] at hfirst
    rcases mem_preimages_repeatedKey (half_mem_preimages hpairs 0 (digestBit (tableSha []) 0)) with
      hhalf | hhalf
    · rw [hhalf] at hfirst
      exact absurd (Option.some.inj hfirst) (by decide)
    · rw [hhalf] at hfirst
      exact absurd (Option.some.inj hfirst) (by decide)

end Unforgeable

/-! ## Rotation of keys -/

inductive KeyStatus where
  | active
  | retiring
  | expired
deriving DecidableEq

/-- `expiresAt` is what its text is read back as. -/
structure KeyEpoch (Time : Type*) where
  epoch : ℕ
  keyId : String
  createdAt : Time
  expiresAt : Option Time
  algorithm : String
  status : KeyStatus

structure KeyRotationManager (Time : Type*) where
  epochs : List (KeyEpoch Time)
  currentEpoch : ℕ
  activeKeys : KeyMap String LamportPublicKey

/-- The calls on a manager; the key that a rotation makes is random, and it is told with it. -/
inductive RotationCall (Time : Type*) where
  | rotate (key : LamportPrivateKey) (now : Time)
  | expireOldKeys (now : Time)

section Rotation

variable {Time : Type*}

def KeyEpoch.retire (e : KeyEpoch Time) : KeyEpoch Time :=
  if e.status = .active then { e with status := .retiring } else e

namespace KeyRotationManager

def new : KeyRotationManager Time where
  epochs := []
  currentEpoch := 0
  activeKeys := .empty

/-- `expiry` adds the rotation interval. -/
def rotate (sha256 : List UInt8 → List UInt8) (expiry : Time → Option Time)
    (m : KeyRotationManager Time) (key : LamportPrivateKey) (now : Time) :
    KeyRotationManager Time where
  epochs := m.epochs.map KeyEpoch.retire ++
    [{ epoch := m.currentEpoch + 1, keyId := key.keyId, createdAt := now, expiresAt := expiry now,
       algorithm := "lamport-sha256", status := .active }]
  currentEpoch := m.currentEpoch + 1
  activeKeys := m.activeKeys.insert key.keyId (key.publicKey sha256)

end KeyRotationManager

variable [LinearOrder Time]

def KeyEpoch.lapses (now : Time) (e : KeyEpoch Time) : Bool :=
  e.status = .retiring ∧ e.expiresAt.any (· < now)

def KeyEpoch.expire (now : Time) (e : KeyEpoch Time) : KeyEpoch Time :=
  if e.lapses now then { e with status := .expired } else e

namespace KeyRotationManager

def expireOldKeys (m : KeyRotationManager Time) (now : Time) : KeyRotationManager Time where
  epochs := m.epochs.map (KeyEpoch.expire now)
  currentEpoch := m.currentEpoch
  activeKeys := m.epochs.foldl
    (fun keys e => if e.lapses now then keys.erase e.keyId else keys) m.activeKeys

variable (sha256 : List UInt8 → List UInt8)

def verifyWithAny (m : KeyRotationManager Time) (message : List UInt8)
    (signature : LamportSignature) : Option Bool :=
  match m.activeKeys signature.keyId with
  | some key => key.verify sha256 message signature
  | none => some false

def after (expiry : Time → Option Time) (m : KeyRotationManager Time) :
    RotationCall Time → KeyRotationManager Time
  | .rotate key now => m.rotate sha256 expiry key now
  | .expireOldKeys now => m.expireOldKeys now

end KeyRotationManager

/-! ### How long a key is accepted -/

/-- What a call makes of the status of a key made before it. -/
def KeyStatus.next (expiresAt : Option Time) : KeyStatus → RotationCall Time → KeyStatus
  | .active, .rotate _ _ => .retiring
  | .retiring, .expireOldKeys now => if expiresAt.any (· < now) then .expired else .retiring
  | status, _ => status

def RotationCall.keyId? : RotationCall Time → Option String
  | rotate key _ => some key.keyId
  | expireOldKeys _ => none

/-- A sweep after the key's time, made after a later rotation. -/
def SweptAfter (expiresAt : Option Time) (calls : List (RotationCall Time)) : Prop :=
  ∃ before now later, calls = before ++ .expireOldKeys now :: later ∧
    (∃ key made, .rotate key made ∈ before) ∧ expiresAt.any (· < now) = true

theorem run_next_expired (expiresAt : Option Time) (calls : List (RotationCall Time)) :
    run (KeyStatus.next expiresAt) .expired calls = .expired := by
  induction calls with
  | nil => rfl
  | cons call calls ih =>
    rw [run_cons]
    cases call <;> exact ih

theorem run_next_retiring (expiresAt : Option Time) (calls : List (RotationCall Time)) :
    run (KeyStatus.next expiresAt) .retiring calls = .expired ↔
      ∃ now, .expireOldKeys now ∈ calls ∧ expiresAt.any (· < now) = true := by
  induction calls with
  | nil => simp
  | cons call calls ih =>
    rw [run_cons]
    cases call with
    | rotate key now =>
      refine Iff.trans ih ?_
      simp
    | expireOldKeys now =>
      rw [KeyStatus.next]
      split_ifs with hover
      · rw [run_next_expired]
        exact iff_of_true rfl ⟨now, List.mem_cons_self, hover⟩
      · rw [ih]
        constructor
        · rintro ⟨now', hmem, hover'⟩
          exact ⟨now', List.mem_cons_of_mem _ hmem, hover'⟩
        · rintro ⟨now', hmem, hover'⟩
          rcases List.mem_cons.mp hmem with heq | hmem
          · cases heq
            exact absurd hover' hover
          · exact ⟨now', hmem, hover'⟩

theorem run_next_active (expiresAt : Option Time) (calls : List (RotationCall Time)) :
    run (KeyStatus.next expiresAt) .active calls = .expired ↔ SweptAfter expiresAt calls := by
  induction calls with
  | nil =>
    refine iff_of_false KeyStatus.noConfusion ?_
    rintro ⟨before, now, later, hsplit, -⟩
    exact List.append_ne_nil_of_right_ne_nil before (List.cons_ne_nil _ later) hsplit.symm
  | cons call calls ih =>
    rw [run_cons]
    cases call with
    | rotate key made =>
      refine (run_next_retiring expiresAt calls).trans ⟨?_, ?_⟩
      · rintro ⟨now, hmem, hover⟩
        obtain ⟨before, later, rfl⟩ := List.append_of_mem hmem
        exact ⟨.rotate key made :: before, now, later, rfl, ⟨key, made, List.mem_cons_self⟩, hover⟩
      · rintro ⟨before, now, later, hsplit, ⟨key', made', hrotate⟩, hover⟩
        obtain ⟨first, before, rfl⟩ := List.exists_cons_of_ne_nil (List.ne_nil_of_mem hrotate)
        obtain ⟨-, rfl⟩ := List.cons.inj hsplit
        exact ⟨now, List.mem_append_right _ List.mem_cons_self, hover⟩
    | expireOldKeys now =>
      refine Iff.trans ih ⟨?_, ?_⟩
      · rintro ⟨before, now', later, rfl, ⟨key, made, hrotate⟩, hover⟩
        exact ⟨.expireOldKeys now :: before, now', later, rfl,
          ⟨key, made, List.mem_cons_of_mem _ hrotate⟩, hover⟩
      · rintro ⟨before, now', later, hsplit, ⟨key, made, hrotate⟩, hover⟩
        obtain ⟨first, before, rfl⟩ := List.exists_cons_of_ne_nil (List.ne_nil_of_mem hrotate)
        obtain ⟨rfl, rfl⟩ := List.cons.inj hsplit
        refine ⟨before, now', later, rfl, ⟨key, made, ?_⟩, hover⟩
        rcases List.mem_cons.mp hrotate with heq | hmem
        · cases heq
        · exact hmem

/-! ### The keys of a manager -/

namespace KeyRotationManager

variable (sha256 : List UInt8 → List UInt8) (expiry : Time → Option Time)

/-- The key has one epoch, of this status, and can be used unless it has expired. -/
structure Tracks (m : KeyRotationManager Time) (key : LamportPrivateKey) (expiresAt : Option Time)
    (status : KeyStatus) : Prop where
  nodup : (m.epochs.map KeyEpoch.keyId).Nodup
  mem : ∃ e ∈ m.epochs, e.keyId = key.keyId ∧ e.expiresAt = expiresAt ∧ e.status = status
  lookup : m.activeKeys key.keyId =
    if status = .expired then none else some (key.publicKey sha256)

variable {sha256 expiry} {m : KeyRotationManager Time} {key : LamportPrivateKey}
  {expiresAt : Option Time} {status : KeyStatus}

omit [LinearOrder Time] in
theorem map_keyId_retire (es : List (KeyEpoch Time)) :
    (es.map KeyEpoch.retire).map KeyEpoch.keyId = es.map KeyEpoch.keyId := by
  rw [List.map_map]
  refine List.map_congr_left fun e _ => ?_
  unfold Function.comp KeyEpoch.retire
  split_ifs <;> rfl

theorem map_keyId_expire (now : Time) (es : List (KeyEpoch Time)) :
    (es.map (KeyEpoch.expire now)).map KeyEpoch.keyId = es.map KeyEpoch.keyId := by
  rw [List.map_map]
  refine List.map_congr_left fun e _ => ?_
  unfold Function.comp KeyEpoch.expire
  split_ifs <;> rfl

omit [LinearOrder Time] in
theorem nodup_rotate {now : Time} (hnodup : (m.epochs.map KeyEpoch.keyId).Nodup)
    (hfresh : key.keyId ∉ m.epochs.map KeyEpoch.keyId) :
    ((m.rotate sha256 expiry key now).epochs.map KeyEpoch.keyId).Nodup := by
  change ((m.epochs.map KeyEpoch.retire ++ [_]).map KeyEpoch.keyId).Nodup
  rw [List.map_append, map_keyId_retire]
  refine List.nodup_append.mpr ⟨hnodup, List.nodup_singleton _, fun id hid id' hid' heq => ?_⟩
  rw [heq, List.mem_singleton.mp hid'] at hid
  exact hfresh hid

omit [LinearOrder Time] in
theorem tracks_rotate {now : Time} (hnodup : (m.epochs.map KeyEpoch.keyId).Nodup)
    (hfresh : key.keyId ∉ m.epochs.map KeyEpoch.keyId) :
    (m.rotate sha256 expiry key now).Tracks sha256 key (expiry now) .active :=
  ⟨nodup_rotate hnodup hfresh,
    ⟨_, List.mem_append_right _ (List.mem_singleton_self _), rfl, rfl, rfl⟩,
    KeyMap.insert_self ..⟩

theorem Tracks.rotate (h : m.Tracks sha256 key expiresAt status) {other : LamportPrivateKey}
    (hfresh : other.keyId ∉ m.epochs.map KeyEpoch.keyId) (now : Time) :
    (m.rotate sha256 expiry other now).Tracks sha256 key expiresAt
      (status.next expiresAt (.rotate other now)) := by
  obtain ⟨e, he, hid, hexpires, hstatus⟩ := h.mem
  have hne : key.keyId ≠ other.keyId := fun heq =>
    hfresh (heq ▸ hid ▸ List.mem_map_of_mem he)
  refine ⟨nodup_rotate h.nodup hfresh,
    ⟨e.retire, List.mem_append_left _ (List.mem_map_of_mem he), ?_⟩, ?_⟩
  · unfold KeyEpoch.retire
    rw [hstatus]
    cases status
    · exact ⟨hid, hexpires, rfl⟩
    · exact ⟨hid, hexpires, hstatus⟩
    · exact ⟨hid, hexpires, hstatus⟩
  · refine (KeyMap.insert_of_ne _ hne _).trans (h.lookup.trans ?_)
    cases status <;> rfl

theorem foldl_erase_apply (es : List (KeyEpoch Time)) (now : Time)
    (keys : KeyMap String LamportPublicKey) (id : String) :
    es.foldl (fun keys e => if e.lapses now then keys.erase e.keyId else keys) keys id =
      if ∃ e ∈ es, e.keyId = id ∧ e.lapses now = true then none else keys id := by
  induction es generalizing keys with
  | nil => simp
  | cons e es ih =>
    rw [List.foldl_cons, ih]
    simp only [List.exists_mem_cons_iff]
    by_cases hrest : ∃ e ∈ es, e.keyId = id ∧ e.lapses now = true
    · rw [if_pos hrest, if_pos (.inr hrest)]
    · rw [if_neg hrest]
      by_cases hfirst : e.lapses now = true
      · rw [if_pos hfirst]
        by_cases hid : e.keyId = id
        · rw [if_pos (.inl ⟨hid, hfirst⟩), hid, KeyMap.erase_self]
        · rw [KeyMap.erase_of_ne _ (Ne.symm hid), if_neg]
          exact not_or.mpr ⟨fun hboth => hid hboth.1, hrest⟩
      · rw [if_neg hfirst, if_neg]
        exact not_or.mpr ⟨fun hboth => hfirst hboth.2, hrest⟩

theorem Tracks.expireOldKeys (h : m.Tracks sha256 key expiresAt status) (now : Time) :
    (m.expireOldKeys now).Tracks sha256 key expiresAt
      (status.next expiresAt (.expireOldKeys now)) := by
  obtain ⟨e, he, hid, hexpires, hstatus⟩ := h.mem
  have hlapses : e.lapses now = true ↔ status = .retiring ∧ expiresAt.any (· < now) = true := by
    rw [KeyEpoch.lapses, hstatus, hexpires, decide_eq_true_iff]
  have hunique : (∃ e' ∈ m.epochs, e'.keyId = key.keyId ∧ e'.lapses now = true) ↔
      e.lapses now = true := by
    constructor
    · rintro ⟨e', he', hid', hlapses'⟩
      rwa [← List.inj_on_of_nodup_map h.nodup he' he (hid'.trans hid.symm)]
    · exact fun hlapses => ⟨e, he, hid, hlapses⟩
  refine ⟨?_, ⟨e.expire now, List.mem_map_of_mem he, ?_⟩, ?_⟩
  · change ((m.epochs.map (KeyEpoch.expire now)).map KeyEpoch.keyId).Nodup
    rw [map_keyId_expire]
    exact h.nodup
  · unfold KeyEpoch.expire
    cases status with
    | retiring =>
      by_cases hover : expiresAt.any (· < now) = true
      · rw [if_pos (hlapses.mpr ⟨rfl, hover⟩), KeyStatus.next, if_pos hover]
        exact ⟨hid, hexpires, rfl⟩
      · rw [if_neg fun hl => hover (hlapses.mp hl).2, KeyStatus.next, if_neg hover]
        exact ⟨hid, hexpires, hstatus⟩
    | _ =>
      rw [if_neg fun hl => KeyStatus.noConfusion (hlapses.mp hl).1]
      exact ⟨hid, hexpires, hstatus⟩
  · refine (foldl_erase_apply m.epochs now m.activeKeys key.keyId).trans ?_
    rw [if_congr (hunique.trans hlapses) rfl rfl, h.lookup]
    cases status <;> simp [KeyStatus.next]

/-- The keys that are made. -/
def keyIds (calls : List (RotationCall Time)) : List String := calls.filterMap RotationCall.keyId?

theorem keyIds_run (m : KeyRotationManager Time) (calls : List (RotationCall Time)) :
    (run (after sha256 expiry) m calls).epochs.map KeyEpoch.keyId =
      m.epochs.map KeyEpoch.keyId ++ keyIds calls := by
  induction calls generalizing m with
  | nil => exact (List.append_nil _).symm
  | cons call calls ih =>
    rw [run_cons, ih]
    cases call with
    | rotate key now =>
      change (m.epochs.map KeyEpoch.retire ++ [_]).map KeyEpoch.keyId ++ keyIds calls = _
      rw [List.map_append, map_keyId_retire, List.append_assoc]
      rfl
    | expireOldKeys now =>
      change (m.epochs.map (KeyEpoch.expire now)).map KeyEpoch.keyId ++ keyIds calls = _
      rw [map_keyId_expire]
      rfl

theorem Tracks.run (h : m.Tracks sha256 key expiresAt status) {calls : List (RotationCall Time)}
    (hids : (m.epochs.map KeyEpoch.keyId ++ keyIds calls).Nodup) :
    (Lib.run (after sha256 expiry) m calls).Tracks sha256 key expiresAt
      (Lib.run (KeyStatus.next expiresAt) status calls) := by
  induction calls using List.reverseRecOn with
  | nil => exact h
  | append_singleton calls call ih =>
    have hmade : keyIds (calls ++ [call]) = keyIds calls ++ keyIds [call] := List.filterMap_append
    rw [hmade, ← List.append_assoc] at hids
    obtain ⟨hbefore, -, hapart⟩ := List.nodup_append.mp hids
    have htracks := ih hbefore
    rw [run_append, run_append, run_cons, run_nil, run_cons, run_nil]
    cases call with
    | rotate other now =>
      refine htracks.rotate (fun hmem => ?_) now
      rw [keyIds_run] at hmem
      exact hapart _ hmem _ (List.mem_singleton_self _) rfl
    | expireOldKeys now => exact htracks.expireOldKeys now

theorem tracks_made {before later : List (RotationCall Time)} {made : Time}
    (hids : (keyIds (before ++ .rotate key made :: later)).Nodup) :
    (Lib.run (after sha256 expiry) new (before ++ .rotate key made :: later)).Tracks sha256 key
      (expiry made) (Lib.run (KeyStatus.next (expiry made)) .active later) := by
  have hids' : keyIds (before ++ .rotate key made :: later) =
      keyIds before ++ key.keyId :: keyIds later := List.filterMap_append
  have hmade : (Lib.run (after sha256 expiry) new before).epochs.map KeyEpoch.keyId =
      keyIds before := (keyIds_run new before).trans (List.nil_append _)
  rw [hids'] at hids
  obtain ⟨hbefore, -, hapart⟩ := List.nodup_append.mp hids
  rw [run_append, run_cons]
  generalize Lib.run (after sha256 expiry) new before = m at hmade ⊢
  have hfresh : key.keyId ∉ m.epochs.map KeyEpoch.keyId := by
    rw [hmade]
    exact fun hmem => hapart _ hmem _ List.mem_cons_self rfl
  refine Tracks.run (tracks_rotate (hmade ▸ hbefore) hfresh) ?_
  change ((m.epochs.map KeyEpoch.retire ++ [_]).map KeyEpoch.keyId ++ keyIds later).Nodup
  rw [List.map_append, map_keyId_retire, hmade, List.append_assoc]
  exact hids

variable (expiry) in
/-- A signature is accepted until a sweep that comes after the time of its key and after another
rotation; so the newest key is good however old it is.  Keys are told apart by their ids. -/
theorem verifyWithAny_run (hsha : ∀ data, (sha256 data).length = 32)
    (hpairs : key.pairs.length = 256) (before later : List (RotationCall Time)) (made : Time)
    (hids : (keyIds (before ++ .rotate key made :: later)).Nodup) {message : List UInt8}
    {sig : LamportSignature} {used : LamportPrivateKey}
    (hsign : key.sign sha256 message = some (sig, used)) :
    let m := Lib.run (after sha256 expiry) new (before ++ .rotate key made :: later)
    (¬ SweptAfter (expiry made) later → m.verifyWithAny sha256 message sig = some true) ∧
      (SweptAfter (expiry made) later → m.verifyWithAny sha256 message sig = some false) := by
  intro m
  have hlookup : m.activeKeys key.keyId = _ := (tracks_made hids).lookup
  have hsigned : sig = signature sha256 key message := by
    rw [sign_eq hsha hpairs] at hsign
    split_ifs at hsign
    exact (Prod.mk.inj (Option.some.inj hsign)).1.symm
  have hid : sig.keyId = key.keyId := by rw [hsigned]; rfl
  unfold verifyWithAny
  rw [hid, hlookup, hsigned]
  constructor
  · intro hkept
    rw [if_neg (mt (run_next_active _ _).mp hkept)]
    exact verify_signature hsha hpairs message
  · intro hswept
    rw [if_pos ((run_next_active _ _).mpr hswept)]

theorem verifyWithAny_run_repeated :
    let expiry := fun now => some (now + 3600)
    let m := Lib.run (after tableSha expiry) new [.rotate repeatedKey 0, .expireOldKeys 5000,
      .rotate { repeatedKey with keyId := "k2" } 6000]
    let sig := signature tableSha repeatedKey []
    m.verifyWithAny tableSha [] sig = some true ∧
      (m.expireOldKeys 7000).verifyWithAny tableSha [] sig = some false := by
  intro expiry m sig
  have hpairs : repeatedKey.pairs.length = 256 := List.length_replicate
  have hsign := (sign_eq length_tableSha hpairs []).trans (if_neg (by decide))
  have hrotated := verifyWithAny_run expiry length_tableSha hpairs []
    [.expireOldKeys 5000, .rotate { repeatedKey with keyId := "k2" } 6000] 0 (by decide) hsign
  have hswept := verifyWithAny_run expiry length_tableSha hpairs []
    [.expireOldKeys 5000, .rotate { repeatedKey with keyId := "k2" } 6000, .expireOldKeys 7000] 0
    (by decide) hsign
  refine ⟨hrotated.1 ?_, hswept.2 ?_⟩
  · exact mt (run_next_active _ _).mpr (by decide)
  · exact (run_next_active _ _).mp (by decide)

end KeyRotationManager

end Rotation

/-! ## Signed checkpoints of the log -/

structure PqSignedCheckpoint where
  sequence : ℕ
  cumulativeHash : String
  epoch : ℕ
  keyId : String
  signature : LamportSignature

/-- What is signed of a checkpoint. -/
def checkpointMessage (seq : ℕ) (cumulativeHash : String) (epoch : ℕ) : String :=
  toString seq ++ ":" ++ cumulativeHash ++ ":" ++ toString epoch

section Checkpoints

variable (sha256 : List UInt8 → List UInt8)

def signCheckpoint (seq : ℕ) (cumulativeHash : String) (privateKey : LamportPrivateKey)
    (epoch : ℕ) : Option (PqSignedCheckpoint × LamportPrivateKey) := do
  let (signature, used) ← privateKey.sign sha256
    (asBytes (checkpointMessage seq cumulativeHash epoch))
  some ({ sequence := seq, cumulativeHash, epoch, keyId := privateKey.keyId, signature }, used)

def PqSignedCheckpoint.message (c : PqSignedCheckpoint) : List UInt8 :=
  asBytes (checkpointMessage c.sequence c.cumulativeHash c.epoch)

def verifyCheckpoint (checkpoint : PqSignedCheckpoint) (publicKey : LamportPublicKey) :
    Option Bool :=
  publicKey.verify sha256 checkpoint.message checkpoint.signature

theorem colon_notMem_toString (n : ℕ) : ':' ∉ (toString n).toList := by
  have hdigits : (toString n).toList = Nat.toDigits 10 n := String.toList_ofList
  intro hmem
  rw [hdigits] at hmem
  exact absurd (Nat.isDigit_of_mem_toDigits (by decide) (by decide) hmem) (by decide)

/-- The numbers have no colons, so the text determines all three. -/
theorem checkpointMessage_injective {seq seq' epoch epoch' : ℕ} {hash hash' : String}
    (h : checkpointMessage seq hash epoch = checkpointMessage seq' hash' epoch') :
    seq = seq' ∧ hash = hash' ∧ epoch = epoch' := by
  have htext (seq : ℕ) (hash : String) (epoch : ℕ) : (checkpointMessage seq hash epoch).toList =
      (toString seq).toList ++ ':' :: (hash.toList ++ ':' :: (toString epoch).toList) := by
    simp [checkpointMessage]
  have hlists := congrArg String.toList h
  rw [htext, htext] at hlists
  obtain ⟨hseq, hrest⟩ := fields_unique_of_not_mem hlists (colon_notMem_toString seq)
    (colon_notMem_toString seq')
  have hback := congrArg List.reverse hrest
  rw [List.reverse_append, List.reverse_append, List.reverse_cons, List.reverse_cons,
    List.append_assoc, List.append_assoc] at hback
  obtain ⟨hepoch, hhash⟩ := fields_unique_of_not_mem hback
    (mt List.mem_reverse.mp (colon_notMem_toString epoch))
    (mt List.mem_reverse.mp (colon_notMem_toString epoch'))
  exact ⟨toString_injective (String.toList_injective hseq),
    String.toList_injective (List.reverse_injective hhash),
    toString_injective (String.toList_injective (List.reverse_injective hepoch))⟩

variable {sha256} {key used : LamportPrivateKey}

/-- A signed checkpoint verifies as long as its number, its hash and its epoch are those that were
signed; the key id it carries is not looked at. -/
theorem verifyCheckpoint_changed (hsha : ∀ data, (sha256 data).length = 32)
    (hpairs : key.pairs.length = 256) (hdistinct : ∀ pair ∈ key.pairs, pair.1 ≠ pair.2)
    (hinj : Set.InjOn sha256 (bytesOf key.preimages)) {seq epoch : ℕ} {cumulativeHash : String}
    {checkpoint : PqSignedCheckpoint}
    (hsign : signCheckpoint sha256 seq cumulativeHash key epoch = some (checkpoint, used))
    (changed : PqSignedCheckpoint) (hsame : changed.signature = checkpoint.signature)
    (hmessages : Set.InjOn sha256 {changed.message, checkpoint.message}) :
    verifyCheckpoint sha256 changed (key.publicKey sha256) =
      some (decide (changed.sequence = seq ∧ changed.cumulativeHash = cumulativeHash ∧
        changed.epoch = epoch)) := by
  have hsigned : signCheckpoint sha256 seq cumulativeHash key epoch = if key.used then none
      else some (⟨seq, cumulativeHash, epoch, key.keyId, signature sha256 key
        (asBytes (checkpointMessage seq cumulativeHash epoch))⟩, { key with used := true }) := by
    rw [signCheckpoint, sign_eq hsha hpairs]
    split_ifs <;> rfl
  rw [hsigned] at hsign
  split_ifs at hsign
  obtain ⟨rfl, -⟩ := Prod.mk.inj (Option.some.inj hsign)
  rw [verifyCheckpoint, hsame]
  by_cases hfields : changed.sequence = seq ∧ changed.cumulativeHash = cumulativeHash ∧
      changed.epoch = epoch
  · obtain ⟨rfl, rfl, rfl⟩ := hfields
    rw [decide_eq_true ⟨rfl, rfl, rfl⟩]
    exact verify_signature hsha hpairs changed.message
  · rw [decide_eq_false hfields]
    refine verify_other_message hsha hpairs hdistinct hinj fun hhash => hfields ?_
    have hmessage := hmessages (Set.mem_insert _ _) (Set.mem_insert_of_mem _ rfl) hhash
    exact checkpointMessage_injective (asBytes_injective hmessage)

/-- The same, with a digest for the checkpoint of an example. -/
def checkpointSha (data : List UInt8) : List UInt8 :=
  if data = asBytes "42:ab:1" then List.replicate 32 255 else tableSha data

theorem verifyCheckpoint_changed_moved :
    let signed := signature checkpointSha repeatedKey (asBytes "42:ab:1")
    signCheckpoint checkpointSha 42 "ab" repeatedKey 1 =
        some (⟨42, "ab", 1, "k1", signed⟩, { repeatedKey with used := true }) ∧
      verifyCheckpoint checkpointSha ⟨42, "ab", 1, "k2", signed⟩
        (repeatedKey.publicKey checkpointSha) = some true ∧
      verifyCheckpoint checkpointSha ⟨43, "ab", 1, "k1", signed⟩
        (repeatedKey.publicKey checkpointSha) = some false := by
  intro signed
  have hsha (data : List UInt8) : (checkpointSha data).length = 32 := by
    unfold checkpointSha
    split_ifs
    · rfl
    · exact length_tableSha data
  have hpairs : repeatedKey.pairs.length = 256 := List.length_replicate
  have hdistinct : ∀ pair ∈ repeatedKey.pairs, pair.1 ≠ pair.2 := by
    intro pair hpair
    rw [(List.mem_replicate.mp hpair).2]
    decide
  have hsame : ∀ x ∈ bytesOf repeatedKey.preimages, checkpointSha x = tableSha x := by
    rintro _ ⟨s, hs, rfl⟩
    rcases mem_preimages_repeatedKey hs with rfl | rfl <;> decide
  have hinj : Set.InjOn checkpointSha (bytesOf repeatedKey.preimages) := by
    intro x hx y hy h
    rw [hsame x hx, hsame y hy] at h
    obtain ⟨s, hs, rfl⟩ := hx
    obtain ⟨t, ht, rfl⟩ := hy
    exact tableSha_injOn ⟨s, List.mem_append_left _ hs, rfl⟩ ⟨t, List.mem_append_left _ ht, rfl⟩ h
  have hsign : signCheckpoint checkpointSha 42 "ab" repeatedKey 1 =
      some (⟨42, "ab", 1, "k1", signed⟩, { repeatedKey with used := true }) := by
    rw [signCheckpoint, sign_eq hsha hpairs]
    rfl
  refine ⟨hsign, ?_, ?_⟩
  · refine verifyCheckpoint_changed hsha hpairs hdistinct hinj hsign ⟨42, "ab", 1, "k2", signed⟩
      rfl ?_
    rw [show PqSignedCheckpoint.message ⟨42, "ab", 1, "k2", signed⟩ =
      PqSignedCheckpoint.message ⟨42, "ab", 1, "k1", signed⟩ from rfl, Set.pair_eq_singleton]
    exact Set.injOn_singleton _ _
  · refine verifyCheckpoint_changed hsha hpairs hdistinct hinj hsign ⟨43, "ab", 1, "k1", signed⟩
      rfl ?_
    have hmoved : PqSignedCheckpoint.message ⟨43, "ab", 1, "k1", signed⟩ = asBytes "43:ab:1" :=
      congrArg asBytes (by decide)
    have hmade : PqSignedCheckpoint.message ⟨42, "ab", 1, "k1", signed⟩ = asBytes "42:ab:1" :=
      congrArg asBytes (by decide)
    have hne : checkpointSha (asBytes "43:ab:1") ≠ checkpointSha (asBytes "42:ab:1") := by decide
    rw [hmoved, hmade, Set.injOn_pair]
    exact fun heq => absurd heq hne

end Checkpoints

end Wardex.Quantum
