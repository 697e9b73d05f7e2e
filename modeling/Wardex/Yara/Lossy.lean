import Wardex.Lib.Offsets
import Wardex.Spool.EncryptedSpool

/-! Bytes read as text: what is no UTF-8 is read as the replacement character, a longest beginning
of a character at a time. -/

namespace Wardex.Yara

open Wardex.Lib Wardex.Spool

/-- The character the bytes begin with. -/
def decodeFirst (bytes : List UInt8) : Option Char := bytes.toByteArray.utf8DecodeChar? 0

def replacement : Char := '\uFFFD'

/-- How many bytes are replaced where no character begins. -/
def invalidLength : List UInt8 → Nat
  | [] => 0
  | first :: bytes =>
    match continuations first with
    | none => 1
    | some ranges => (accepted ranges bytes).1 + 1

def lossyFrom : (fuel : Nat) → List UInt8 → List Char
  | 0, _ => []
  | _ + 1, [] => []
  | fuel + 1, bytes =>
    match decodeFirst bytes with
    | some c => c :: lossyFrom fuel (bytes.drop c.utf8Size)
    | none => replacement :: lossyFrom fuel (bytes.drop (invalidLength bytes))

/-- `String::from_utf8_lossy`. -/
def fromUtf8Lossy (data : List UInt8) : List Char := lossyFrom data.length data

/-- The bytes of a text. -/
def encode (text : List Char) : List UInt8 := text.flatMap String.utf8EncodeChar

/-! ## The first character -/

theorem decodeFirst_eq_some_iff {bytes : List UInt8} {c : Char} :
    decodeFirst bytes = some c ↔ ∃ rest, bytes = String.utf8EncodeChar c ++ rest := by
  have happend : ∀ a b : List UInt8, (a ++ b).toByteArray = a.toByteArray ++ b.toByteArray := by
    intro a b
    apply ByteArray.ext
    simp [List.data_toByteArray]
  constructor
  · intro h
    obtain ⟨rest, hrest⟩ := ByteArray.exists_of_utf8DecodeChar?_eq_some h
    refine ⟨rest.data.toList, ?_⟩
    have hbytes := congrArg (fun b : ByteArray => b.data.toList) hrest
    simpa [List.data_toByteArray] using hbytes
  · rintro ⟨rest, rfl⟩
    rw [decodeFirst, happend]
    exact ByteArray.utf8DecodeChar?_utf8EncodeChar_append

theorem ofNat_val_toNat {v : Nat} (h : v.isValidChar) : (Char.ofNat v).val.toNat = v := by
  rw [Char.ofNat, dif_pos h]
  rfl

theorem eq_ofNat {b : UInt8} {n : Nat} (h : n = b.toNat) : UInt8.ofNat n = b := by
  rw [h, UInt8.ofNat_toNat]

theorem exists_char_two {a b : UInt8} (ha : 0xC2 ≤ a ∧ a ≤ 0xDF) (hb : 0x80 ≤ b ∧ b ≤ 0xBF) :
    ∃ c, String.utf8EncodeChar c = [a, b] := by
  simp only [UInt8.le_iff_toNat_le, UInt8.reduceToNat] at ha hb
  have hvalid : ((a.toNat - 0xC0) * 64 + (b.toNat - 0x80)).isValidChar := by
    left
    omega
  refine ⟨Char.ofNat ((a.toNat - 0xC0) * 64 + (b.toNat - 0x80)), ?_⟩
  rw [String.utf8EncodeChar, ofNat_val_toNat hvalid]
  rw [if_neg (by omega), if_pos (by omega), eq_ofNat (b := a) (by omega),
    eq_ofNat (b := b) (by omega)]

theorem exists_char_three {a b c : UInt8} (ha : 0xE0 ≤ a ∧ a ≤ 0xEF) (hb : 0x80 ≤ b ∧ b ≤ 0xBF)
    (hc : 0x80 ≤ c ∧ c ≤ 0xBF) (hlow : a = 0xE0 → 0xA0 ≤ b) (hsurrogate : a = 0xED → b ≤ 0x9F) :
    ∃ d, String.utf8EncodeChar d = [a, b, c] := by
  simp only [UInt8.le_iff_toNat_le, UInt8.reduceToNat, ← UInt8.toNat_inj]
    at ha hb hc hlow hsurrogate
  have hvalid :
      ((a.toNat - 0xE0) * 4096 + (b.toNat - 0x80) * 64 + (c.toNat - 0x80)).isValidChar := by
    by_cases h : a.toNat < 0xED
    · left
      omega
    · by_cases h' : a.toNat = 0xED
      · left
        have := hsurrogate h'
        omega
      · right
        omega
  refine ⟨Char.ofNat ((a.toNat - 0xE0) * 4096 + (b.toNat - 0x80) * 64 + (c.toNat - 0x80)), ?_⟩
  have hbig : 0x800 ≤ (a.toNat - 0xE0) * 4096 + (b.toNat - 0x80) * 64 + (c.toNat - 0x80) := by
    by_cases h : a.toNat = 0xE0
    · have := hlow h
      omega
    · omega
  rw [String.utf8EncodeChar, ofNat_val_toNat hvalid]
  rw [if_neg (by omega), if_neg (by omega), if_pos (by omega), eq_ofNat (b := a) (by omega),
    eq_ofNat (b := b) (by omega), eq_ofNat (b := c) (by omega)]

theorem exists_char_four {a b c d : UInt8} (ha : 0xF0 ≤ a ∧ a ≤ 0xF4) (hb : 0x80 ≤ b ∧ b ≤ 0xBF)
    (hc : 0x80 ≤ c ∧ c ≤ 0xBF) (hd : 0x80 ≤ d ∧ d ≤ 0xBF) (hlow : a = 0xF0 → 0x90 ≤ b)
    (hhigh : a = 0xF4 → b ≤ 0x8F) : ∃ e, String.utf8EncodeChar e = [a, b, c, d] := by
  simp only [UInt8.le_iff_toNat_le, UInt8.reduceToNat, ← UInt8.toNat_inj] at ha hb hc hd hlow hhigh
  have hbig : 0x10000 ≤ (a.toNat - 0xF0) * 262144 + (b.toNat - 0x80) * 4096 +
      (c.toNat - 0x80) * 64 + (d.toNat - 0x80) := by
    by_cases h : a.toNat = 0xF0
    · have := hlow h
      omega
    · omega
  have hsmall : (a.toNat - 0xF0) * 262144 + (b.toNat - 0x80) * 4096 +
      (c.toNat - 0x80) * 64 + (d.toNat - 0x80) < 0x110000 := by
    by_cases h : a.toNat = 0xF4
    · have := hhigh h
      omega
    · omega
  have hvalid : ((a.toNat - 0xF0) * 262144 + (b.toNat - 0x80) * 4096 +
      (c.toNat - 0x80) * 64 + (d.toNat - 0x80)).isValidChar := by
    right
    omega
  refine ⟨Char.ofNat ((a.toNat - 0xF0) * 262144 + (b.toNat - 0x80) * 4096 +
      (c.toNat - 0x80) * 64 + (d.toNat - 0x80)), ?_⟩
  rw [String.utf8EncodeChar, ofNat_val_toNat hvalid]
  rw [if_neg (by omega), if_neg (by omega), if_neg (by omega), eq_ofNat (b := a) (by omega),
    eq_ofNat (b := b) (by omega), eq_ofNat (b := c) (by omega), eq_ofNat (b := d) (by omega)]

theorem exists_char_one {a : UInt8} (ha : a < 0x80) : ∃ c, String.utf8EncodeChar c = [a] := by
  simp only [UInt8.lt_iff_toNat_lt, UInt8.reduceToNat] at ha
  have hvalid : a.toNat.isValidChar := by
    left
    omega
  refine ⟨Char.ofNat a.toNat, ?_⟩
  rw [String.utf8EncodeChar, ofNat_val_toNat hvalid, if_pos (by omega), eq_ofNat rfl]

/-! ## What is replaced -/

theorem accepted_le (ranges : List (UInt8 × UInt8)) (bytes : List UInt8) :
    (accepted ranges bytes).1 ≤ ranges.length ∧ (accepted ranges bytes).1 ≤ bytes.length := by
  induction ranges generalizing bytes with
  | nil => exact ⟨Nat.le_refl 0, Nat.zero_le _⟩
  | cons range ranges ih =>
    cases bytes with
    | nil => exact ⟨Nat.zero_le _, Nat.le_refl 0⟩
    | cons b bytes =>
      obtain ⟨hranges, hbytes⟩ := ih bytes
      rw [accepted]
      split_ifs
      · exact ⟨Nat.succ_le_succ hranges, Nat.succ_le_succ hbytes⟩
      · exact ⟨Nat.zero_le _, Nat.zero_le _⟩

theorem exists_of_accepted {ranges : List (UInt8 × UInt8)} {bytes : List UInt8}
    (h : (accepted ranges bytes).1 = ranges.length) : ∃ taken rest, bytes = taken ++ rest ∧
      List.Forall₂ (fun range b => range.1 ≤ b ∧ b ≤ range.2) ranges taken := by
  induction ranges generalizing bytes with
  | nil => exact ⟨[], bytes, rfl, .nil⟩
  | cons range ranges ih =>
    cases bytes with
    | nil => cases h
    | cons b bytes =>
      rw [accepted] at h
      split_ifs at h with hb
      obtain ⟨taken, rest, rfl, htaken⟩ := ih (Nat.succ_inj.mp h)
      exact ⟨b :: taken, rest, rfl, .cons hb htaken⟩

theorem forall₂_one {p : UInt8 × UInt8 → UInt8 → Prop} {r : UInt8 × UInt8} {taken : List UInt8}
    (h : List.Forall₂ p [r] taken) : ∃ b, taken = [b] ∧ p r b := by
  obtain ⟨b, rest, hb, hrest, rfl⟩ := List.forall₂_cons_left_iff.mp h
  rw [List.forall₂_nil_left_iff.mp hrest]
  exact ⟨b, rfl, hb⟩

theorem forall₂_two {p : UInt8 × UInt8 → UInt8 → Prop} {r s : UInt8 × UInt8}
    {taken : List UInt8} (h : List.Forall₂ p [r, s] taken) :
    ∃ b c, taken = [b, c] ∧ p r b ∧ p s c := by
  obtain ⟨b, rest, hb, hrest, rfl⟩ := List.forall₂_cons_left_iff.mp h
  obtain ⟨c, rfl, hc⟩ := forall₂_one hrest
  exact ⟨b, c, rfl, hb, hc⟩

theorem forall₂_three {p : UInt8 × UInt8 → UInt8 → Prop} {r s t : UInt8 × UInt8}
    {taken : List UInt8} (h : List.Forall₂ p [r, s, t] taken) :
    ∃ b c d, taken = [b, c, d] ∧ p r b ∧ p s c ∧ p t d := by
  obtain ⟨b, rest, hb, hrest, rfl⟩ := List.forall₂_cons_left_iff.mp h
  obtain ⟨c, d, rfl, hc, hd⟩ := forall₂_two hrest
  exact ⟨b, c, d, rfl, hb, hc, hd⟩

/-- Bytes that are all as they may be are a character. -/
theorem exists_char_of_accepted {first : UInt8} {bytes : List UInt8}
    {ranges : List (UInt8 × UInt8)} (hfirst : continuations first = some ranges)
    (h : (accepted ranges bytes).1 = ranges.length) :
    ∃ c rest, first :: bytes = String.utf8EncodeChar c ++ rest := by
  obtain ⟨taken, rest, rfl, htaken⟩ := exists_of_accepted h
  suffices hc : ∃ c, String.utf8EncodeChar c = first :: taken by
    obtain ⟨c, hc⟩ := hc
    exact ⟨c, rest, by rw [hc]; rfl⟩
  unfold continuations at hfirst
  dsimp only at hfirst
  split_ifs at hfirst with h1 h2 h3 h4 h5 h6 h7 h8 <;> obtain rfl := Option.some.inj hfirst
  · rw [List.forall₂_nil_left_iff.mp htaken]
    exact exists_char_one h1
  · obtain ⟨b, rfl, hb⟩ := forall₂_one htaken
    exact exists_char_two h2 hb
  · obtain ⟨b, c, rfl, hb, hc⟩ := forall₂_two htaken
    subst h3
    exact exists_char_three (by decide) ⟨by grind, hb.2⟩ hc
      (fun _ => hb.1) (fun h => absurd h (by decide))
  · obtain ⟨b, c, rfl, hb, hc⟩ := forall₂_two htaken
    subst h4
    exact exists_char_three (by decide) ⟨hb.1, by grind⟩ hc
      (fun h => absurd h (by decide)) (fun _ => hb.2)
  · obtain ⟨b, c, rfl, hb, hc⟩ := forall₂_two htaken
    exact exists_char_three ⟨by grind, h5.2⟩ hb hc (by grind) (by grind)
  · obtain ⟨b, c, d, rfl, hb, hc, hd⟩ := forall₂_three htaken
    subst h6
    exact exists_char_four (by decide) ⟨by grind, hb.2⟩ hc hd
      (fun _ => hb.1) (fun h => absurd h (by decide))
  · obtain ⟨b, c, d, rfl, hb, hc, hd⟩ := forall₂_three htaken
    exact exists_char_four ⟨by grind, by grind⟩ hb hc hd (by grind) (by grind)
  · obtain ⟨b, c, d, rfl, hb, hc, hd⟩ := forall₂_three htaken
    subst h8
    exact exists_char_four (by decide) ⟨hb.1, by grind⟩ hc hd
      (fun h => absurd h (by decide)) (fun _ => hb.2)

theorem length_continuations {first : UInt8} {ranges : List (UInt8 × UInt8)}
    (h : continuations first = some ranges) : ranges.length ≤ 3 := by
  unfold continuations at h
  dsimp only at h
  split_ifs at h <;> obtain rfl := Option.some.inj h <;> decide

theorem invalidLength_pos (first : UInt8) (bytes : List UInt8) :
    0 < invalidLength (first :: bytes) := by
  rw [invalidLength]
  split
  · exact Nat.one_pos
  · exact Nat.succ_pos _

theorem invalidLength_le (bytes : List UInt8) : invalidLength bytes ≤ bytes.length := by
  unfold invalidLength
  split
  · exact Nat.le_refl 0
  · split
    · exact Nat.succ_le_succ (Nat.zero_le _)
    · exact Nat.succ_le_succ (accepted_le _ _).2

theorem invalidLength_le_three {bytes : List UInt8} (h : decodeFirst bytes = none) :
    invalidLength bytes ≤ 3 := by
  unfold invalidLength
  split
  · exact Nat.zero_le 3
  · next first bytes =>
    split
    · decide
    · next ranges hranges =>
      have hle := length_continuations hranges
      have htaken := (accepted_le ranges bytes).1
      -- four bytes that are all as they may be would have been a character
      have hne : (accepted ranges bytes).1 ≠ ranges.length := by
        intro hall
        obtain ⟨c, rest, hc⟩ := exists_char_of_accepted hranges hall
        rw [decodeFirst_eq_some_iff.mpr ⟨rest, hc⟩] at h
        cases h
      omega

/-! ## The text read -/

theorem utf8Size_pos_le (c : Char) (rest : List UInt8) :
    0 < c.utf8Size ∧ c.utf8Size ≤ (String.utf8EncodeChar c ++ rest).length := by
  rw [List.length_append, String.length_utf8EncodeChar]
  exact ⟨c.utf8Size_pos, Nat.le_add_right _ _⟩

theorem lossyFrom_cons {fuel : Nat} {bytes : List UInt8} (h : bytes ≠ []) :
    lossyFrom (fuel + 1) bytes =
      match decodeFirst bytes with
      | some c => c :: lossyFrom fuel (bytes.drop c.utf8Size)
      | none => replacement :: lossyFrom fuel (bytes.drop (invalidLength bytes)) := by
  cases bytes with
  | nil => exact absurd rfl h
  | cons b bytes => rfl

theorem drop_encoded (c : Char) (rest : List UInt8) :
    (String.utf8EncodeChar c ++ rest).drop c.utf8Size = rest := by
  rw [← String.length_utf8EncodeChar, List.drop_left]

/-- Any fuel from the length on reads everything. -/
theorem lossyFrom_eq {fuel : Nat} {data : List UInt8} (h : data.length ≤ fuel) :
    lossyFrom fuel data = fromUtf8Lossy data := by
  rw [fromUtf8Lossy]
  induction hn : data.length using Nat.strong_induction_on generalizing fuel data with
  | _ n ih =>
    subst hn
    cases data with
    | nil => cases fuel <;> rfl
    | cons first bytes =>
      obtain ⟨fuel, rfl⟩ : ∃ k, fuel = k + 1 := Nat.exists_eq_succ_of_ne_zero (by
        rw [List.length_cons] at h
        omega)
      have hstep : ∀ k, 0 < k →
          lossyFrom fuel ((first :: bytes).drop k) =
            lossyFrom bytes.length ((first :: bytes).drop k) := by
        intro k hk
        have hlen : ((first :: bytes).drop k).length ≤ bytes.length := by
          rw [List.length_drop, List.length_cons]
          omega
        rw [ih _ (Nat.lt_succ_of_le hlen) (hlen.trans (Nat.le_of_succ_le_succ h)) rfl,
          ih _ (Nat.lt_succ_of_le hlen) hlen rfl]
      rw [List.length_cons, lossyFrom_cons (List.cons_ne_nil _ _),
        lossyFrom_cons (List.cons_ne_nil _ _)]
      cases hfirst : decodeFirst (first :: bytes) with
      | some c =>
        dsimp only
        rw [hstep _ c.utf8Size_pos]
      | none =>
        dsimp only
        rw [hstep _ (invalidLength_pos first bytes)]

@[simp] theorem fromUtf8Lossy_nil : fromUtf8Lossy [] = [] := rfl

theorem fromUtf8Lossy_char (c : Char) (rest : List UInt8) :
    fromUtf8Lossy (String.utf8EncodeChar c ++ rest) = c :: fromUtf8Lossy rest := by
  have hne : String.utf8EncodeChar c ++ rest ≠ [] := by simp [String.utf8EncodeChar_ne_nil]
  obtain ⟨hpos, hle⟩ := utf8Size_pos_le c rest
  rw [← lossyFrom_eq (Nat.le_succ _), lossyFrom_cons hne, decodeFirst_eq_some_iff.mpr ⟨rest, rfl⟩]
  dsimp only
  rw [drop_encoded, lossyFrom_eq (by rw [List.length_append]; exact Nat.le_add_left _ _)]

theorem fromUtf8Lossy_invalid {bytes : List UInt8} (hne : bytes ≠ [])
    (h : decodeFirst bytes = none) :
    fromUtf8Lossy bytes = replacement :: fromUtf8Lossy (bytes.drop (invalidLength bytes)) := by
  rw [← lossyFrom_eq (Nat.le_succ _), lossyFrom_cons hne, h]
  dsimp only
  rw [lossyFrom_eq (by rw [List.length_drop]; omega)]

/-- Bytes are characters and invalid stretches, one after the other. -/
theorem bytes_induction {p : List UInt8 → Prop} (nil : p [])
    (char : ∀ c rest, p rest → p (String.utf8EncodeChar c ++ rest))
    (invalid : ∀ bytes, bytes ≠ [] → decodeFirst bytes = none →
      p (bytes.drop (invalidLength bytes)) → p bytes) (data : List UInt8) : p data := by
  induction hn : data.length using Nat.strong_induction_on generalizing data with
  | _ n ih =>
    subst hn
    cases data with
    | nil => exact nil
    | cons first bytes =>
      cases hfirst : decodeFirst (first :: bytes) with
      | some c =>
        obtain ⟨rest, hrest⟩ := decodeFirst_eq_some_iff.mp hfirst
        rw [hrest]
        refine char c rest (ih _ ?_ rest rfl)
        have := c.utf8Size_pos
        rw [hrest, List.length_append, String.length_utf8EncodeChar]
        omega
      | none =>
        refine invalid _ (List.cons_ne_nil _ _) hfirst (ih _ ?_ _ rfl)
        have := invalidLength_pos first bytes
        rw [List.length_drop, List.length_cons]
        omega

/-! ## How much longer the text is -/

theorem encode_cons (c : Char) (text : List Char) :
    encode (c :: text) = String.utf8EncodeChar c ++ encode text := List.flatMap_cons

theorem length_encode (text : List Char) : (encode text).length = utf8Length text := by
  induction text with
  | nil => rfl
  | cons c text ih =>
    rw [encode_cons, List.length_append, String.length_utf8EncodeChar, ih]
    rfl

/-- The bytes are those of a text. -/
def ValidUtf8 (data : List UInt8) : Prop := ∃ text, encode text = data

theorem fromUtf8Lossy_encode (text : List Char) : fromUtf8Lossy (encode text) = text := by
  induction text with
  | nil => rfl
  | cons c text ih => rw [encode_cons, fromUtf8Lossy_char, ih]

theorem validUtf8_iff {data : List UInt8} :
    ValidUtf8 data ↔ encode (fromUtf8Lossy data) = data := by
  constructor
  · rintro ⟨text, rfl⟩
    rw [fromUtf8Lossy_encode]
  · exact fun h => ⟨_, h⟩

instance (data : List UInt8) : Decidable (ValidUtf8 data) := decidable_of_iff' _ validUtf8_iff

theorem length_le_lossy (data : List UInt8) :
    data.length ≤ (encode (fromUtf8Lossy data)).length := by
  induction data using bytes_induction with
  | nil => exact Nat.le_refl 0
  | char c rest ih =>
    rw [fromUtf8Lossy_char, encode_cons, List.length_append, List.length_append]
    omega
  | invalid bytes hne hnone ih =>
    -- the replacement character is as long as the longest stretch it is put for
    have hthree := invalidLength_le_three hnone
    have hreplaced : (String.utf8EncodeChar replacement).length = 3 := by decide
    rw [List.length_drop] at ih
    rw [fromUtf8Lossy_invalid hne hnone, encode_cons, List.length_append, hreplaced]
    omega

/-- By how many bytes the text read is longer: three less the length for each invalid stretch. -/
def drift (data : List UInt8) : Nat := (encode (fromUtf8Lossy data)).length - data.length

theorem length_lossy (data : List UInt8) :
    (encode (fromUtf8Lossy data)).length = data.length + drift data := by
  have := length_le_lossy data
  rw [drift]
  omega

/-! ## Lines -/

def newline : UInt8 := 10

theorem newline_mem {c : Char} (h : newline ∈ String.utf8EncodeChar c) : c = '\n' := by
  have hval : c.val.toNat = 10 := by
    rw [String.utf8EncodeChar] at h
    split_ifs at h <;>
      simp only [List.mem_cons, List.not_mem_nil, or_false, ← UInt8.toNat_inj, newline,
        UInt8.reduceToNat, UInt8.toNat_ofNat'] at h <;> omega
  exact Char.ext (UInt32.toNat_inj.mp hval)

theorem encodeChar_newline : String.utf8EncodeChar '\n' = [newline] := by decide

/-- A character does not go beyond a newline. -/
theorem decodeFirst_append_newline {bytes : List UInt8} (hne : bytes ≠ [])
    (h : decodeFirst bytes = none) (rest : List UInt8) :
    decodeFirst (bytes ++ newline :: rest) = none := by
  by_contra hsome
  obtain ⟨c, hc⟩ := Option.ne_none_iff_exists'.mp hsome
  obtain ⟨more, hmore⟩ := decodeFirst_eq_some_iff.mp hc
  rcases List.append_eq_append_iff.mp hmore with ⟨tail, hchar, htail⟩ | ⟨tail, hbytes, htail⟩
  -- the character would reach as far as the newline or beyond, and so be one itself
  · cases tail with
    | nil =>
      rw [List.append_nil] at hchar
      rw [decodeFirst_eq_some_iff.mpr ⟨[], by rw [List.append_nil, hchar]⟩] at h
      cases h
    | cons b tail =>
      obtain ⟨rfl, -⟩ := List.cons.inj htail
      have hmem : newline ∈ String.utf8EncodeChar c := by simp [hchar]
      rw [newline_mem hmem] at hchar
      cases bytes with
      | nil => exact hne rfl
      | cons d bytes =>
        rw [encodeChar_newline] at hchar
        exact absurd (List.cons.inj hchar).2.symm (by simp)
  · rw [decodeFirst_eq_some_iff.mpr ⟨tail, hbytes⟩] at h
    cases h

theorem accepted_append_newline {ranges : List (UInt8 × UInt8)}
    (h : ∀ range ∈ ranges, newline < range.1) (bytes rest : List UInt8) :
    (accepted ranges (bytes ++ newline :: rest)).1 = (accepted ranges bytes).1 := by
  induction ranges generalizing bytes with
  | nil => rfl
  | cons range ranges ih =>
    have hrange := h range List.mem_cons_self
    have hranges := fun r hr => h r (List.mem_cons_of_mem range hr)
    cases bytes with
    | nil =>
      have hlow : ¬ (range.1 ≤ newline ∧ newline ≤ range.2) := fun hin =>
        absurd hrange (UInt8.not_lt.mpr hin.1)
      change (accepted (range :: ranges) (newline :: rest)).1 = 0
      rw [accepted, if_neg hlow]
    | cons b bytes =>
      rw [List.cons_append, accepted, accepted]
      split_ifs
      · exact congrArg Nat.succ (ih hranges bytes)
      · rfl

theorem newline_lt_continuations {first : UInt8} {ranges : List (UInt8 × UInt8)}
    (h : continuations first = some ranges) : ∀ range ∈ ranges, newline < range.1 := by
  have hall : (ranges.all fun range => decide (newline < range.1)) = true := by
    unfold continuations at h
    dsimp only at h
    split_ifs at h <;> obtain rfl := Option.some.inj h <;> rfl
  intro range hrange
  exact of_decide_eq_true (List.all_eq_true.mp hall range hrange)

theorem invalidLength_append_newline {bytes : List UInt8} (hne : bytes ≠ []) (rest : List UInt8) :
    invalidLength (bytes ++ newline :: rest) = invalidLength bytes := by
  cases bytes with
  | nil => exact absurd rfl hne
  | cons first bytes =>
    rw [List.cons_append, invalidLength, invalidLength]
    cases hfirst : continuations first with
    | none => rfl
    | some ranges =>
      exact congrArg Nat.succ (accepted_append_newline (newline_lt_continuations hfirst) bytes rest)

theorem fromUtf8Lossy_append_newline (line rest : List UInt8) :
    fromUtf8Lossy (line ++ newline :: rest) =
      fromUtf8Lossy line ++ '\n' :: fromUtf8Lossy rest := by
  induction line using bytes_induction with
  | nil =>
    have h := fromUtf8Lossy_char '\n' rest
    rwa [encodeChar_newline] at h
  | char c line ih =>
    rw [List.append_assoc, fromUtf8Lossy_char, fromUtf8Lossy_char, ih]
    rfl
  | invalid line hne hnone ih =>
    rw [fromUtf8Lossy_invalid (by simp [hne]) (decodeFirst_append_newline hne hnone rest),
      invalidLength_append_newline hne, List.drop_append_of_le_length (invalidLength_le line), ih,
      fromUtf8Lossy_invalid hne hnone]
    rfl

theorem newline_not_mem_lossy {line : List UInt8} (h : newline ∉ line) :
    '\n' ∉ fromUtf8Lossy line := by
  induction line using bytes_induction with
  | nil => exact List.not_mem_nil
  | char c rest ih =>
    rw [List.mem_append, not_or] at h
    rw [fromUtf8Lossy_char]
    refine List.not_mem_cons_of_ne_of_not_mem ?_ (ih h.2)
    rintro rfl
    exact h.1 (by decide)
  | invalid bytes hne hnone ih =>
    rw [fromUtf8Lossy_invalid hne hnone]
    exact List.not_mem_cons_of_ne_of_not_mem (by decide)
      (ih fun hmem => h (List.mem_of_mem_drop hmem))

/-- The lines of the text are the lines of the bytes, each read on its own. -/
theorem splitOn_fromUtf8Lossy (data : List UInt8) :
    (fromUtf8Lossy data).splitOn '\n' = (data.splitOn newline).map fromUtf8Lossy := by
  induction hn : data.length using Nat.strong_induction_on generalizing data with
  | _ n ih =>
    subst hn
    by_cases h : newline ∈ data
    · obtain ⟨line, rest, rfl, hline⟩ := List.eq_append_cons_of_mem h
      have hlt : rest.length < (line ++ newline :: rest).length := by
        rw [List.length_append, List.length_cons]
        omega
      rw [fromUtf8Lossy_append_newline,
        List.splitOn_append_cons_self_of_not_mem (newline_not_mem_lossy hline),
        List.splitOn_append_cons_self_of_not_mem hline, ih _ hlt rest rfl]
      rfl
    · rw [List.splitOn_eq_singleton h, List.splitOn_eq_singleton (newline_not_mem_lossy h)]
      rfl

/-- A line that stands where its text stands is valid. -/
theorem validUtf8_of_prefix {line rest : List UInt8} (hrest : ∀ b ∈ rest.head?, b = newline)
    (h : encode (fromUtf8Lossy line) <+: line ++ rest) : ValidUtf8 line := by
  induction line using bytes_induction with
  | nil => exact ⟨[], rfl⟩
  | char c line ih =>
    rw [fromUtf8Lossy_char, encode_cons, List.append_assoc, List.prefix_append_right_inj] at h
    obtain ⟨text, rfl⟩ := ih h
    exact ⟨c :: text, encode_cons c text⟩
  | invalid line hne hnone ih =>
    rw [fromUtf8Lossy_invalid hne hnone, encode_cons] at h
    obtain ⟨more, hmore⟩ := h
    -- the text would begin with the replacement character, and the line does not
    have hnone' : decodeFirst (line ++ rest) = none := by
      cases rest with
      | nil => rwa [List.append_nil]
      | cons b rest =>
        obtain rfl := hrest b rfl
        exact decodeFirst_append_newline hne hnone rest
    have hsome := decodeFirst_eq_some_iff.mpr ⟨_, hmore.symm.trans (List.append_assoc _ _ _)⟩
    rw [hnone'] at hsome
    cases hsome

end Wardex.Yara
