import Mathlib.Data.List.Basic
import Wardex.Lib.FixedWidth

/-! WebSocket frames on a stream: what is encoded is decoded, whatever follows it; what is cut off
is not taken for a frame; and no input makes the decoders read out of bounds.  An access that the
source would panic on is an error of its own. -/

namespace Wardex.WsStream

open Wardex.Lib

def maxFramePayload : Nat := 1024 * 1024

structure WsFrame where
  fin : Bool
  opcode : UInt8
  payload : List UInt8
deriving DecidableEq

/-- An index or a range that is not within the slice. -/
structure OutOfBounds where
  position : Nat
deriving DecidableEq

def index (data : List UInt8) (i : Nat) : Except OutOfBounds UInt8 :=
  match data[i]? with
  | some b => .ok b
  | none => .error ⟨i⟩

def slice (data : List UInt8) (start stop : Nat) : Except OutOfBounds (List UInt8) :=
  if start ≤ stop ∧ stop ≤ data.length then .ok ((data.drop start).take (stop - start))
  else .error ⟨stop⟩

/-- The bytes of a frame between the first one and the payload. -/
def lengthField (len : Nat) : List UInt8 :=
  if len < 126 then [UInt8.ofNat len]
  else if len < 65536 then [126, UInt8.ofNat (len >>> 8), UInt8.ofNat (len &&& 0xFF)]
  else 127 :: (List.range 8).reverse.map fun i => UInt8.ofNat (len >>> (i * 8) &&& 0xFF)

def WsFrame.encode (f : WsFrame) : List UInt8 :=
  let first := (if f.fin then 0x80 else 0) ||| f.opcode
  first :: lengthField f.payload.length ++ f.payload

/-- `usize::checked_shl`: fails only for a shift by the width or more. -/
def checkedShl (n shift : Nat) : Option Nat :=
  if shift < 64 then some ((n <<< shift) % 2 ^ 64) else none

/-- The loop over the eight bytes of an extended length. -/
def extendedLength (data : List UInt8) : (left i payloadLen : Nat) →
    Except OutOfBounds (Option Nat)
  | 0, _, payloadLen => .ok (some payloadLen)
  | left + 1, i, payloadLen =>
    match checkedShl payloadLen 8 with
    | some shifted => do
      let b ← index data (2 + i)
      extendedLength data left (i + 1) (shifted ||| b.toNat)
    | none => .ok none

/-- The length of the payload and where the header goes on. -/
def payloadLength (data : List UInt8) (second : UInt8) : Except OutOfBounds (Option (Nat × Nat)) :=
  let payloadLen := (second &&& 0x7F).toNat
  if payloadLen = 126 then
    if data.length < 4 then .ok none
    else do
      let high ← index data 2
      let low ← index data 3
      return some (high.toNat <<< 8 ||| low.toNat, 4)
  else if payloadLen = 127 then
    if data.length < 10 then .ok none
    else do
      let payloadLen ← extendedLength data 8 0 0
      return payloadLen.map fun n => (n, 10)
  else .ok (some (payloadLen, 2))

/-- The mask, if there is one, and where the payload starts. -/
def maskKey (data : List UInt8) (masked : Bool) (offset : Nat) :
    Except OutOfBounds (Option (Option (Vector UInt8 4) × Nat)) :=
  if masked then
    if data.length < offset + 4 then .ok none
    else do
      let a ← index data offset
      let b ← index data (offset + 1)
      let c ← index data (offset + 2)
      let d ← index data (offset + 3)
      return some (some #v[a, b, c, d], offset + 4)
  else .ok (some (none, offset))

def applyMask (mask : Vector UInt8 4) (payload : List UInt8) : List UInt8 :=
  payload.mapIdx fun i b => b ^^^ mask[i % 4]

def WsFrame.decodeInner (data : List UInt8) (requireMask : Bool) :
    Except OutOfBounds (Option (WsFrame × Nat)) :=
  if data.length < 2 then .ok none
  else do
    let first ← index data 0
    let second ← index data 1
    let fin : Bool := first &&& 0x80 ≠ 0
    let opcode := first &&& 0x0F
    let masked : Bool := second &&& 0x80 ≠ 0
    if requireMask && !masked then .ok none
    else
      match ← payloadLength data second with
      | none => .ok none
      | some (payloadLen, offset) =>
        if payloadLen > maxFramePayload then .ok none
        else
          match ← maskKey data masked offset with
          | none => .ok none
          | some (key, offset) =>
            if data.length < offset + payloadLen then .ok none
            else do
              let payload ← slice data offset (offset + payloadLen)
              let payload := match key with
                | some mask => applyMask mask payload
                | none => payload
              return some (⟨fin, opcode, payload⟩, offset + payloadLen)

def WsFrame.decode (data : List UInt8) : Except OutOfBounds (Option (WsFrame × Nat)) :=
  decodeInner data false

def WsFrame.decodeClient (data : List UInt8) : Except OutOfBounds (Option (WsFrame × Nat)) :=
  decodeInner data true

/-! ## Headers -/

def lengthCode (len : Nat) : UInt8 :=
  if len < 126 then UInt8.ofNat len else if len < 65536 then 126 else 127

def lengthRest (len : Nat) : List UInt8 :=
  if len < 126 then [] else if len < 65536 then bigEndian 2 len else bigEndian 8 len

theorem lengthField_eq (len : Nat) : lengthField len = lengthCode len :: lengthRest len := by
  have hbyte : ∀ n, UInt8.ofNat (n &&& 0xFF) = UInt8.ofNat n := by
    intro n
    rw [show 0xFF = 2 ^ 8 - 1 from rfl, Nat.and_two_pow_sub_one_eq_mod, UInt8.ofNat_mod_size]
  unfold lengthField lengthCode lengthRest
  split_ifs
  · rfl
  · rw [hbyte, Nat.shiftRight_eq_div_pow]
    simp [bigEndian, List.range_succ]
  · refine congrArg _ (List.map_congr_left fun i _ => ?_)
    rw [hbyte, Nat.shiftRight_eq_div_pow, Nat.mul_comm, Nat.pow_mul]

theorem lengthCode_toNat (len : Nat) : (lengthCode len).toNat =
    if len < 126 then len else if len < 65536 then 126 else 127 := by
  unfold lengthCode
  split_ifs with hsmall
  · rw [UInt8.toNat_ofNat', Nat.mod_eq_of_lt (by omega)]
  · rfl
  · rfl

/-- What the mask bit adds to a byte below 128 can be taken off again. -/
theorem maskBit_byte {c : UInt8} (hc : c.toNat < 128) :
    c &&& 0x7F = c ∧ c &&& 0x80 = 0 ∧ (0x80 ||| c) &&& 0x7F = c ∧ (0x80 ||| c) &&& 0x80 ≠ 0 := by
  have hall : ∀ i : Fin 128, UInt8.ofNat i.val &&& 0x7F = UInt8.ofNat i.val ∧
      UInt8.ofNat i.val &&& 0x80 = 0 ∧ (0x80 ||| UInt8.ofNat i.val) &&& 0x7F = UInt8.ofNat i.val ∧
      (0x80 ||| UInt8.ofNat i.val) &&& 0x80 ≠ 0 := by decide
  have hi := hall ⟨c.toNat, hc⟩
  rwa [UInt8.ofNat_toNat] at hi

theorem lengthCode_lt (len : Nat) : (lengthCode len).toNat < 128 := by
  rw [lengthCode_toNat]
  split_ifs <;> omega

theorem firstByte {opcode : UInt8} (h : opcode.toNat < 16) (fin : Bool) :
    decide (((if fin then 0x80 else 0) ||| opcode) &&& 0x80 ≠ 0) = fin ∧
      ((if fin then 0x80 else 0) ||| opcode) &&& 0x0F = opcode := by
  have hall : ∀ i : Fin 16, ∀ fin ∈ [true, false],
      decide (((if fin then 0x80 else 0) ||| UInt8.ofNat i.val) &&& 0x80 ≠ 0) = fin ∧
        ((if fin then 0x80 else 0) ||| UInt8.ofNat i.val) &&& 0x0F = UInt8.ofNat i.val := by decide
  have hi := hall ⟨opcode.toNat, h⟩ fin (by cases fin <;> decide)
  rwa [UInt8.ofNat_toNat] at hi

/-! ## The parts of the decoder -/

variable {data : List UInt8}

theorem index_eq {i : Nat} {b : UInt8} (h : data[i]? = some b) : index data i = .ok b := by
  rw [index, h]

theorem index_ok {i : Nat} (h : i < data.length) : ∃ b, index data i = .ok b :=
  ⟨data[i], index_eq (List.getElem?_eq_getElem h)⟩

theorem extendedLength_eq {bytes tail : List UInt8} {i : Nat} (n : Nat)
    (h : data.drop (2 + i) = bytes ++ tail) :
    extendedLength data bytes.length i n =
      .ok (some (bytes.foldl (fun n b => (n <<< 8) % 2 ^ 64 ||| b.toNat) n)) := by
  induction bytes generalizing i n with
  | nil => rfl
  | cons b bytes ih =>
    have hb : data[2 + i]? = some b := by
      rw [← List.head?_drop, h]
      rfl
    have hrest : data.drop (2 + (i + 1)) = bytes ++ tail := by
      rw [← Nat.add_assoc, ← List.tail_drop, h]
      rfl
    rw [List.length_cons, extendedLength, checkedShl, if_pos (by decide)]
    simp only [index_eq hb]
    exact ih _ hrest

theorem payloadLength_header {second x y : UInt8} {len : Nat} (tail : List UInt8)
    (hsecond : second &&& 0x7F = lengthCode len) (hlen : len < 2 ^ 64) :
    payloadLength (x :: y :: (lengthRest len ++ tail)) second =
      .ok (some (len, 2 + (lengthRest len).length)) := by
  have hcode := lengthCode_toNat len
  unfold payloadLength lengthRest
  rw [hsecond, hcode]
  by_cases hsmall : len < 126
  · simp only [if_pos hsmall]
    rw [if_neg (by omega), if_neg (by omega)]
    rfl
  · by_cases hmid : len < 65536
    · simp only [if_neg hsmall, if_pos hmid, if_true]
      obtain ⟨high, low, hbytes⟩ : ∃ high low, bigEndian 2 len = [high, low] := ⟨_, _, rfl⟩
      have hvalue : high.toNat <<< 8 ||| low.toNat = len := by
        have hread := readBigEndian_bigEndian 2 0 len
        rw [hbytes, Nat.mod_eq_of_lt (show len < 256 ^ 2 from hmid)] at hread
        rw [← Nat.shiftLeft_add_eq_or_of_lt low.toNat_lt, Nat.shiftLeft_eq]
        simpa [readBigEndian] using hread
      rw [hbytes, if_neg (by simp), ← hvalue]
      rfl
    · simp only [if_neg hsmall, if_neg hmid]
      have hdrop : (x :: y :: (bigEndian 8 len ++ tail)).drop (2 + 0) = bigEndian 8 len ++ tail :=
        rfl
      have hloop := extendedLength_eq 0 hdrop
      rw [length_bigEndian, foldl_shift_or 56 _ (by decide), readBigEndian_bigEndian] at hloop
      have hvalue : (0 * 256 ^ 8 + len % 256 ^ 8) % 2 ^ 64 = len := by omega
      rw [hvalue] at hloop
      rw [if_neg (by decide), if_pos trivial, if_neg (by simp), hloop, length_bigEndian]
      rfl

/-- A header that is cut off. -/
theorem payloadLength_short {second : UInt8} {len : Nat}
    (hsecond : second &&& 0x7F = lengthCode len)
    (htwo : 2 ≤ data.length) (hshort : data.length < 2 + (lengthRest len).length) :
    payloadLength data second = .ok none := by
  have hcode := lengthCode_toNat len
  unfold payloadLength
  unfold lengthRest at hshort
  rw [hsecond, hcode]
  by_cases hsmall : len < 126
  · rw [if_pos hsmall, List.length_nil] at hshort
    omega
  · rw [if_neg hsmall] at hshort
    by_cases hmid : len < 65536
    · rw [if_pos hmid, length_bigEndian] at hshort
      rw [if_neg hsmall, if_pos hmid, if_pos rfl, if_pos hshort]
    · rw [if_neg hmid, length_bigEndian] at hshort
      rw [if_neg hsmall, if_neg hmid, if_neg (by decide), if_pos rfl, if_pos hshort]

theorem payloadLength_ok (second : UInt8) (h : 2 ≤ data.length) :
    ∃ r, payloadLength data second = .ok r ∧
      ∀ n offset, r = some (n, offset) → offset ≤ data.length := by
  unfold payloadLength
  dsimp only
  split_ifs with h126 hshort h127 hshort'
  · exact ⟨none, rfl, fun _ _ hr => nomatch hr⟩
  · obtain ⟨high, hhigh⟩ := index_ok (show 2 < data.length by omega)
    obtain ⟨low, hlow⟩ := index_ok (show 3 < data.length by omega)
    refine ⟨_, by rw [hhigh, hlow]; rfl, ?_⟩
    rintro n offset ⟨⟩
    omega
  · exact ⟨none, rfl, fun _ _ hr => nomatch hr⟩
  · have hbytes : ((data.drop 2).take 8).length = 8 := by
      rw [List.length_take, List.length_drop]
      omega
    have hloop := extendedLength_eq 0 (i := 0) (List.take_append_drop 8 (data.drop 2)).symm
    rw [hbytes] at hloop
    refine ⟨_, by rw [hloop]; rfl, ?_⟩
    rintro n offset ⟨⟩
    omega
  · refine ⟨_, rfl, ?_⟩
    rintro n offset ⟨⟩
    exact h

theorem maskKey_ok (masked : Bool) {offset : Nat} (h : offset ≤ data.length) :
    ∃ r, maskKey data masked offset = .ok r ∧
      ∀ key start, r = some (key, start) → start ≤ data.length := by
  unfold maskKey
  split_ifs with hmasked hshort
  · exact ⟨none, rfl, fun _ _ hr => nomatch hr⟩
  · obtain ⟨a, ha⟩ := index_ok (show offset < data.length by omega)
    obtain ⟨b, hb⟩ := index_ok (show offset + 1 < data.length by omega)
    obtain ⟨c, hc⟩ := index_ok (show offset + 2 < data.length by omega)
    obtain ⟨d, hd⟩ := index_ok (show offset + 3 < data.length by omega)
    refine ⟨_, by rw [ha, hb, hc, hd]; rfl, ?_⟩
    rintro key start ⟨⟩
    omega
  · refine ⟨_, rfl, ?_⟩
    rintro key start ⟨⟩
    exact h

theorem maskKey_eq {offset : Nat} {mask : Vector UInt8 4} {tail : List UInt8}
    (h : data.drop offset = mask.toList ++ tail) :
    maskKey data true offset = .ok (some (some mask, offset + 4)) := by
  obtain ⟨a, b, c, d, rfl⟩ : ∃ a b c d, mask = #v[a, b, c, d] := by
    refine ⟨mask[0], mask[1], mask[2], mask[3], Vector.ext fun i hi => ?_⟩
    match i, hi with
    | 0, _ => rfl
    | 1, _ => rfl
    | 2, _ => rfl
    | 3, _ => rfl
  have hat : ∀ j, data[offset + j]? = ([a, b, c, d] ++ tail)[j]? := by
    intro j
    rw [← List.getElem?_drop, h]
    rfl
  have hlong : ¬ data.length < offset + 4 := by
    have hlast := (List.getElem?_eq_some_iff.mp ((hat 3).trans rfl)).1
    omega
  have hfirst : index data offset = .ok a := index_eq (hat 0)
  rw [maskKey, if_pos rfl, if_neg hlong, hfirst, index_eq (hat 1), index_eq (hat 2),
    index_eq (hat 3)]
  rfl

theorem slice_ok {start stop : Nat} (hstart : start ≤ stop) (hstop : stop ≤ data.length) :
    slice data start stop = .ok ((data.drop start).take (stop - start)) := if_pos ⟨hstart, hstop⟩

/-- No input makes the decoder read out of bounds or take more bytes than there are. -/
theorem decodeInner_ok (data : List UInt8) (requireMask : Bool) :
    ∃ r, WsFrame.decodeInner data requireMask = .ok r ∧
      ∀ f n, r = some (f, n) → n ≤ data.length := by
  have hnone : ∃ r : Option (WsFrame × Nat), (.ok none : Except OutOfBounds _) = .ok r ∧
      ∀ f n, r = some (f, n) → n ≤ data.length := ⟨none, rfl, fun _ _ hr => nomatch hr⟩
  unfold WsFrame.decodeInner
  split_ifs with htwo
  · exact hnone
  · obtain ⟨first, hfirst⟩ := index_ok (show 0 < data.length by omega)
    obtain ⟨second, hsecond⟩ := index_ok (show 1 < data.length by omega)
    obtain ⟨header, hheader, hoffset⟩ := payloadLength_ok second (show 2 ≤ data.length by omega)
    simp only [hfirst, hsecond, bind, Except.bind]
    split_ifs
    · exact hnone
    · rw [hheader]
      cases header with
      | none => exact hnone
      | some p =>
        obtain ⟨payloadLen, offset⟩ := p
        obtain ⟨mask, hmask, hstart⟩ :=
          maskKey_ok (decide (second &&& 0x80 ≠ 0)) (hoffset payloadLen offset rfl)
        dsimp only
        split_ifs
        · exact hnone
        · rw [hmask]
          cases mask with
          | none => exact hnone
          | some p =>
            obtain ⟨key, start⟩ := p
            dsimp only
            split_ifs with hlong
            · exact hnone
            · rw [slice_ok (Nat.le_add_right _ _) (by omega)]
              refine ⟨_, rfl, ?_⟩
              rintro f n ⟨⟩
              omega

/-! ## What is encoded is decoded -/

theorem applyMask_applyMask (mask : Vector UInt8 4) (payload : List UInt8) :
    applyMask mask (applyMask mask payload) = payload := by
  unfold applyMask
  rw [List.mapIdx_mapIdx]
  have hid : (fun i => (fun b : UInt8 => b ^^^ mask[i % 4]) ∘ fun b => b ^^^ mask[i % 4]) =
      fun _ b => b := by
    funext i b
    change b ^^^ _ ^^^ _ = b
    rw [UInt8.xor_assoc, UInt8.xor_self, UInt8.xor_zero]
  rw [hid, List.mapIdx_eq_zipIdx_map]
  simp

/-- The frame as a client sends it. -/
def WsFrame.encodeMasked (f : WsFrame) (mask : Vector UInt8 4) : List UInt8 :=
  let first := (if f.fin then 0x80 else 0) ||| f.opcode
  first :: (0x80 ||| lengthCode f.payload.length) :: (lengthRest f.payload.length ++
    (mask.toList ++ applyMask mask f.payload))

theorem WsFrame.encode_eq (f : WsFrame) : f.encode = ((if f.fin then 0x80 else 0) ||| f.opcode) ::
    lengthCode f.payload.length :: (lengthRest f.payload.length ++ f.payload) := by
  rw [encode, lengthField_eq]
  rfl

/-- The decoder behind a complete header. -/
theorem decodeInner_header {requireMask : Bool} {first second : UInt8}
    {payloadLen offset start : Nat}
    {key : Option (Vector UInt8 4)} (hfirst : data[0]? = some first)
    (hsecond : data[1]? = some second)
    (hmasked : requireMask = true → second &&& 0x80 ≠ 0)
    (hheader : payloadLength data second = .ok (some (payloadLen, offset)))
    (hmax : payloadLen ≤ maxFramePayload)
    (hmask : maskKey data (decide (second &&& 0x80 ≠ 0)) offset = .ok (some (key, start))) :
    WsFrame.decodeInner data requireMask = .ok (if data.length < start + payloadLen then none
      else
        let payload := (data.drop start).take payloadLen
        some (⟨first &&& 0x80 ≠ 0, first &&& 0x0F, key.elim payload fun m => applyMask m payload⟩,
          start + payloadLen)) := by
  have htwo : ¬ data.length < 2 := by
    have hone := (List.getElem?_eq_some_iff.mp hsecond).1
    omega
  have hrequire : ¬ (requireMask && !decide (second &&& 0x80 ≠ 0)) = true := by
    cases requireMask with
    | false => exact Bool.false_ne_true
    | true => simpa using hmasked rfl
  unfold WsFrame.decodeInner
  rw [if_neg htwo, index_eq hfirst, index_eq hsecond]
  simp only [bind, Except.bind]
  rw [if_neg hrequire, hheader]
  dsimp only
  rw [if_neg (Nat.not_lt.mpr hmax), hmask]
  dsimp only
  split_ifs with hshort
  · rfl
  · rw [slice_ok (Nat.le_add_right _ _) (Nat.le_of_not_lt hshort), Nat.add_sub_cancel_left]
    cases key <;> rfl

theorem drop_header (first second : UInt8) (header body : List UInt8) :
    (first :: second :: (header ++ body)).drop (2 + header.length) = body := by
  rw [Nat.add_comm, List.drop_succ_cons, List.drop_succ_cons, List.drop_left]

theorem length_header (first second : UInt8) (header body : List UInt8) :
    (first :: second :: (header ++ body)).length = 2 + header.length + body.length := by
  rw [List.length_cons, List.length_cons, List.length_append]
  omega

theorem decodeInner_unmasked (first : UInt8) {len : Nat} (hlen : len ≤ maxFramePayload)
    (body : List UInt8) :
    WsFrame.decodeInner (first :: lengthCode len :: (lengthRest len ++ body)) false =
      .ok (if body.length < len then none else some
        (⟨first &&& 0x80 ≠ 0, first &&& 0x0F, body.take len⟩,
          2 + (lengthRest len).length + len)) := by
  obtain ⟨hlow, hbit, _⟩ := maskBit_byte (lengthCode_lt len)
  rw [decodeInner_header rfl rfl (fun h => absurd h Bool.false_ne_true)
    (payloadLength_header body hlow (hlen.trans_lt (by decide))) hlen (by rw [hbit]; rfl)]
  rw [drop_header, length_header]
  simp only [Nat.add_lt_add_iff_left]
  rfl

theorem decodeInner_masked (requireMask : Bool) (first : UInt8) {len : Nat}
    (hlen : len ≤ maxFramePayload) (mask : Vector UInt8 4) (body : List UInt8) :
    WsFrame.decodeInner (first :: (0x80 ||| lengthCode len) :: (lengthRest len ++
        (mask.toList ++ body))) requireMask =
      .ok (if body.length < len then none else some
        (⟨first &&& 0x80 ≠ 0, first &&& 0x0F, applyMask mask (body.take len)⟩,
          2 + (lengthRest len).length + 4 + len)) := by
  obtain ⟨_, _, hlow, hbit⟩ := maskBit_byte (lengthCode_lt len)
  have hdrop := drop_header first (0x80 ||| lengthCode len) (lengthRest len) (mask.toList ++ body)
  have hbody :
      (first :: (0x80 ||| lengthCode len) :: (lengthRest len ++ (mask.toList ++ body))).drop
      (2 + (lengthRest len).length + 4) = body := by
    rw [← List.drop_drop, hdrop, List.drop_left' mask.length_toList]
  rw [decodeInner_header rfl rfl (fun _ => hbit)
    (payloadLength_header (mask.toList ++ body) hlow (hlen.trans_lt (by decide))) hlen
    (by rw [decide_eq_true hbit]; exact maskKey_eq hdrop)]
  have hlength : (first :: (0x80 ||| lengthCode len) :: (lengthRest len ++
      (mask.toList ++ body))).length = 2 + (lengthRest len).length + 4 + body.length := by
    rw [length_header, List.length_append, Vector.length_toList, ← Nat.add_assoc]
  rw [hbody, hlength]
  simp only [Nat.add_lt_add_iff_left]
  rfl

namespace WsFrame

variable {f : WsFrame}

theorem length_encode (f : WsFrame) : f.encode.length =
    2 + (lengthRest f.payload.length).length + f.payload.length := by
  rw [f.encode_eq, length_header]

theorem length_applyMask (mask : Vector UInt8 4) (payload : List UInt8) :
    (applyMask mask payload).length = payload.length := List.length_mapIdx

theorem length_encodeMasked (f : WsFrame) (mask : Vector UInt8 4) :
    (f.encodeMasked mask).length =
      2 + (lengthRest f.payload.length).length + 4 + f.payload.length := by
  rw [encodeMasked, length_header, List.length_append, Vector.length_toList, length_applyMask,
    ← Nat.add_assoc]

theorem decode_encode (hopcode : f.opcode.toNat < 16) (hlen : f.payload.length ≤ maxFramePayload)
    (rest : List UInt8) : decode (f.encode ++ rest) = .ok (some (f, f.encode.length)) := by
  obtain ⟨hfin, hop⟩ := firstByte hopcode f.fin
  have hbody : ¬ (f.payload ++ rest).length < f.payload.length := by simp
  rw [f.length_encode, f.encode_eq, List.cons_append, List.cons_append, List.append_assoc, decode,
    decodeInner_unmasked _ hlen, if_neg hbody, List.take_left, hfin, hop]

theorem decodeInner_encodeMasked (requireMask : Bool) (hopcode : f.opcode.toNat < 16)
    (hlen : f.payload.length ≤ maxFramePayload) (mask : Vector UInt8 4) (rest : List UInt8) :
    decodeInner (f.encodeMasked mask ++ rest) requireMask =
      .ok (some (f, (f.encodeMasked mask).length)) := by
  obtain ⟨hfin, hop⟩ := firstByte hopcode f.fin
  have hmasked := length_applyMask mask f.payload
  have hbody : ¬ (applyMask mask f.payload ++ rest).length < f.payload.length := by
    rw [List.length_append, hmasked]
    omega
  rw [f.length_encodeMasked, encodeMasked, List.cons_append, List.cons_append, List.append_assoc,
    List.append_assoc, decodeInner_masked _ _ hlen, if_neg hbody, List.take_left' hmasked,
    applyMask_applyMask, hfin, hop]

theorem decode_prefix (hlen : f.payload.length ≤ maxFramePayload) {p : List UInt8}
    (hp : p <+: f.encode) (hne : p ≠ f.encode) : decode p = .ok none := by
  have hshort : p.length < f.encode.length :=
    hp.length_le.lt_of_ne fun h => hne (hp.eq_of_length h)
  rw [f.length_encode] at hshort
  rw [f.encode_eq] at hp
  match p, hp with
  | [], _ => rfl
  | [_], _ => rfl
  | x :: y :: tail, hp =>
    obtain ⟨_, hsecond⟩ := List.cons_prefix_cons.mp hp
    obtain ⟨rfl, htail⟩ := List.cons_prefix_cons.mp hsecond
    simp only [List.length_cons] at hshort
    by_cases hheader : tail.length < (lengthRest f.payload.length).length
    · -- the header itself is cut off
      obtain ⟨hlow, _⟩ := maskBit_byte (lengthCode_lt f.payload.length)
      have hnone : payloadLength (x :: lengthCode f.payload.length :: tail) _ = .ok none :=
        payloadLength_short hlow (by simp) (by simp only [List.length_cons]; omega)
      change decodeInner _ false = _
      unfold decodeInner
      rw [if_neg (by simp), index_eq rfl, index_eq rfl]
      simp only [bind, Except.bind]
      rw [Bool.false_and, if_neg Bool.false_ne_true, hnone]
    · have hrest : lengthRest f.payload.length <+: tail :=
        List.prefix_of_prefix_length_le (List.prefix_append ..) htail (Nat.le_of_not_lt hheader)
      obtain ⟨body, rfl⟩ := hrest
      rw [List.length_append] at hshort
      rw [decode, decodeInner_unmasked _ hlen, if_pos (by omega)]

/-- A client's frame without a mask is refused. -/
theorem decodeClient_unmasked {data : List UInt8} {second : UInt8}
    (hsecond : data[1]? = some second)
    (hbit : second &&& 0x80 = 0) : decodeClient data = .ok none := by
  have hone := (List.getElem?_eq_some_iff.mp hsecond).1
  obtain ⟨first, hfirst⟩ := index_ok (show 0 < data.length by omega)
  rw [decodeClient, decodeInner, if_neg (by omega), hfirst, index_eq hsecond]
  simp only [bind, Except.bind]
  rw [hbit]
  rfl

end WsFrame

open WsFrame in
/-- Framing on a stream of bytes, for every frame that the limits allow. -/
theorem framing_round_trips (f : WsFrame) (hopcode : f.opcode.toNat < 16)
    (hlen : f.payload.length ≤ maxFramePayload) :
    (∀ rest, decode (f.encode ++ rest) = .ok (some (f, f.encode.length))) ∧
      (∀ p, p <+: f.encode → p ≠ f.encode → decode p = .ok none) ∧
      (∀ mask rest, decodeClient (f.encodeMasked mask ++ rest) =
        .ok (some (f, (f.encodeMasked mask).length))) ∧
      (∀ (data : List UInt8) second, data[1]? = some second → second &&& 0x80 = 0 →
        decodeClient data = .ok none) ∧
      ∀ data : List UInt8, ∀ decoder ∈ [decode, decodeClient], ∃ r, decoder data = .ok r ∧
        ∀ g n, r = some (g, n) → n ≤ data.length := by
  refine ⟨decode_encode hopcode hlen, fun p => decode_prefix hlen,
    decodeInner_encodeMasked true hopcode hlen, fun _ _ => decodeClient_unmasked,
    fun data decoder hdecoder => ?_⟩
  rcases List.mem_cons.mp hdecoder with rfl | hdecoder
  · exact decodeInner_ok data false
  · obtain rfl := List.mem_singleton.mp hdecoder
    exact decodeInner_ok data true

theorem framing_round_trips_text :
    WsFrame.decode ([0x81, 2, 104, 105] ++ [0x88]) = .ok (some (⟨true, 1, [104, 105]⟩, 4)) :=
  (framing_round_trips ⟨true, 1, [104, 105]⟩ (by decide) (by decide)).1 [0x88]

end Wardex.WsStream
