import Wardex.Lib.Decimal
import Wardex.Spool.EncryptedSpool

/-! A persisted spool is read back entry by entry, and a spool that fails to restore is left
as it was. -/

namespace Wardex.Spool

open Wardex.Lib Wardex.Audit

theorem digitChar_ne {d : Nat} (h : d < 16) : d.digitChar ≠ '\n' ∧ d.digitChar ≠ '\r' := by
  interval_cases d <;> decide

theorem not_mem_hexChars (bytes : List UInt8) : '\n' ∉ hexChars bytes ∧ '\r' ∉ hexChars bytes := by
  have hchar : ∀ c ∈ hexChars bytes, c ≠ '\n' ∧ c ≠ '\r' := by
    intro c hc
    obtain ⟨b, -, hcb⟩ := List.mem_flatMap.mp hc
    have hb : b.toNat < 256 := b.toNat_lt
    rcases List.mem_cons.mp hcb with rfl | hcb
    · exact digitChar_ne (by omega)
    · rw [List.mem_singleton.mp hcb]
      exact digitChar_ne (by omega)
  exact ⟨fun h => (hchar _ h).1 rfl, fun h => (hchar _ h).2 rfl⟩

theorem not_mem_toString (n : Nat) {c : Char} (h : c.isDigit = false) :
    c ∉ (toString n).toList := by
  intro hc
  rw [Nat.toString_eq_ofList_toDigits, String.toList_ofList] at hc
  rw [Nat.isDigit_of_mem_toDigits (by decide) (by decide) hc] at h
  exact Bool.noConfusion h

theorem not_mem_append {a b : String} {c : Char} (ha : c ∉ a.toList) (hb : c ∉ b.toList) :
    c ∉ (a ++ b).toList := by
  rw [String.toList_append, List.mem_append]
  exact not_or.mpr ⟨ha, hb⟩

theorem not_mem_text (h : SpoolPersistHeader) {c : Char} (hc : c = '\n' ∨ c = '\r') :
    c ∉ h.text.toList := by
  have hdigits : ∀ n : Nat, c ∉ (toString n).toList := by
    intro n
    rcases hc with rfl | rfl <;> exact not_mem_toString n rfl
  have hfixed : ∀ t ∈ ["\x7b\"next_seq\":", ",\"total_enqueued\":", ",\"total_delivered\":",
      ",\"total_dropped\":", ",\"entry_count\":", "\x7d"], c ∉ t.toList := by
    rcases hc with rfl | rfl <;> decide
  simp only [List.forall_mem_cons] at hfixed
  obtain ⟨hseq, henq, hdel, hdrop, hcount, hclose, -⟩ := hfixed
  unfold SpoolPersistHeader.text
  exact not_mem_append (not_mem_append (not_mem_append (not_mem_append (not_mem_append
    (not_mem_append (not_mem_append (not_mem_append (not_mem_append (not_mem_append hseq
      (hdigits _)) henq) (hdigits _)) hdel) (hdigits _)) hdrop) (hdigits _)) hcount)
        (hdigits _)) hclose

/-- A label and the digits after it. -/
def headerField (label : String) (text : List Char) : Option (UInt64 × List Char) :=
  if label.toList.isPrefixOf text then
    let rest := text.drop label.toList.length
    (parseDigits (rest.takeWhile Char.isDigit)).map fun n =>
      (UInt64.ofNat n, rest.dropWhile Char.isDigit)
  else none

/-- Reads the header text as it is written, with nothing between its parts. -/
def headerFromText (text : String) : Option SpoolPersistHeader := do
  let (nextSeq, text) ← headerField "\x7b\"next_seq\":" text.toList
  let (totalEnqueued, text) ← headerField ",\"total_enqueued\":" text
  let (totalDelivered, text) ← headerField ",\"total_delivered\":" text
  let (totalDropped, text) ← headerField ",\"total_dropped\":" text
  let (entryCount, text) ← headerField ",\"entry_count\":" text
  if text = ['}'] then some ⟨nextSeq, totalEnqueued, totalDelivered, totalDropped, entryCount⟩
  else none

theorem headerField_text (label : String) (n : UInt64) {rest : List Char}
    (h : ∃ c more, rest = c :: more ∧ c.isDigit = false) :
    headerField label (label.toList ++ ((toString n.toNat).toList ++ rest)) = some (n, rest) := by
  obtain ⟨c, more, rfl, hc⟩ := h
  have hdigits : ∀ d ∈ Nat.toDigits 10 n.toNat, d.isDigit := fun d hd =>
    Nat.isDigit_of_mem_toDigits (by decide) (by decide) hd
  have hprefix : label.toList.isPrefixOf
      (label.toList ++ ((toString n.toNat).toList ++ c :: more)) :=
    List.isPrefixOf_iff_prefix.mpr (List.prefix_append _ _)
  rw [headerField, if_pos hprefix, List.drop_left, Nat.toString_eq_ofList_toDigits,
    String.toList_ofList]
  dsimp only
  rw [List.takeWhile_append_of_pos hdigits, List.dropWhile_append_of_pos hdigits,
    List.takeWhile_cons_of_neg (by simp [hc]), List.dropWhile_cons_of_neg (by simp [hc]),
    List.append_nil, parseDigits_toDigits, Option.map_some, UInt64.ofNat_toNat]

theorem headerFromText_text (h : SpoolPersistHeader) : headerFromText h.text = some h := by
  have hchars : h.text.toList = "\x7b\"next_seq\":".toList ++ ((toString h.nextSeq.toNat).toList ++
      (",\"total_enqueued\":".toList ++ ((toString h.totalEnqueued.toNat).toList ++
      (",\"total_delivered\":".toList ++ ((toString h.totalDelivered.toNat).toList ++
      (",\"total_dropped\":".toList ++ ((toString h.totalDropped.toNat).toList ++
      (",\"entry_count\":".toList ++ ((toString h.entryCount.toNat).toList ++ ['}']))))))))) := by
    unfold SpoolPersistHeader.text
    simp only [String.toList_append, List.append_assoc]
    rfl
  have hlabel : ∀ (label : String) (more : List Char), label.toList.head? = some ',' →
      ∃ c rest, label.toList ++ more = c :: rest ∧ c.isDigit = false := by
    intro label more hhead
    obtain ⟨rest, hrest⟩ := List.head?_eq_some_iff.mp hhead
    exact ⟨',', rest ++ more, by rw [hrest, List.cons_append], rfl⟩
  unfold headerFromText
  rw [hchars, headerField_text _ _ (hlabel _ _ rfl)]
  simp only [Option.bind_eq_bind, Option.bind_some]
  rw [headerField_text _ _ (hlabel _ _ rfl)]
  simp only [Option.bind_some]
  rw [headerField_text _ _ (hlabel _ _ rfl)]
  simp only [Option.bind_some]
  rw [headerField_text _ _ (hlabel _ _ rfl)]
  simp only [Option.bind_some]
  rw [headerField_text _ _ ⟨'}', [], rfl, rfl⟩]
  rfl

/-- The JSON text of an entry whose texts need no escapes. -/
def SpoolEntry.text (e : SpoolEntry) : String :=
  "\x7b\"seq\":" ++ toString e.seq.toNat ++ ",\"enqueued_at\":\"" ++ e.enqueuedAt ++
    "\",\"attempts\":" ++ toString e.attempts.toNat ++ ",\"payload\":\"" ++ e.payload ++
    "\",\"destination\":\"" ++ e.destination ++ "\",\"tenant_id\":" ++
    e.tenantId.elim "null" (fun t => "\"" ++ t ++ "\"") ++ "\x7d"

/-- The JSON library on the written header texts and on the texts of these entries. -/
def plainJson (entries : List SpoolEntry) : SerdeJson where
  entryToVec e := asBytes e.text
  entryFromSlice data := entries.find? fun e => asBytes e.text = data
  headerFromStr text := (headerFromText text).elim (.error "expected value") .ok

theorem headerFromStr_plainJson (entries : List SpoolEntry) (h : SpoolPersistHeader) :
    (plainJson entries).headerFromStr h.text = .ok h := by
  simp only [plainJson, headerFromText_text, Option.elim_some]

/-- A spool as it is made with the key of the source's tests. -/
def keySpool (maxEntries : Nat) : EncryptedSpool where
  queue := []
  key := [0x6b, 0x65, 0x79]
  maxEntries := maxEntries
  nextSeq := 1
  totalEnqueued := 0
  totalDelivered := 0
  totalDropped := 0
  maxRetries := 5
  key_ne := by decide

theorem tryNew_key (maxEntries : Nat) :
    EncryptedSpool.tryNew [0x6b, 0x65, 0x79] maxEntries = .ok (keySpool maxEntries) := rfl

namespace EncryptedSpool

/-- The lines of a persisted spool. -/
def persistLines (s : EncryptedSpool) : List (List Char) :=
  s.header.text.toList :: s.queue.map hexChars

theorem persist_eq (s : EncryptedSpool) :
    s.persist = asBytes (String.ofList (s.persistLines.flatMap fun t => t ++ ['\n'])) := by
  have hline : ∀ t : List Char, (t ++ ['\n']).flatMap String.utf8EncodeChar =
      asBytes (String.ofList t) ++ [10] := by
    intro t
    rw [List.flatMap_append, asBytes_ofList]
    rfl
  rw [asBytes_ofList, List.flatMap_assoc, persistLines, List.flatMap_cons, List.flatMap_map]
  simp only [hline, String.ofList_toList]
  rfl

theorem lines_persist (s : EncryptedSpool) :
    lines (s.persistLines.flatMap fun t => t ++ ['\n']) = s.persistLines := by
  have hok : ∀ t ∈ s.persistLines, '\n' ∉ t ∧ '\r' ∉ t := by
    intro t ht
    rcases List.mem_cons.mp ht with ht | ht
    · rw [ht]
      exact ⟨not_mem_text _ (Or.inl rfl), not_mem_text _ (Or.inr rfl)⟩
    · obtain ⟨e, -, rfl⟩ := List.mem_map.mp ht
      exact not_mem_hexChars e
  exact lines_flatMap (fun t ht => (hok t ht).1) fun t ht => (hok t ht).2

/-- An empty entry is an empty line, and empty lines are skipped. -/
theorem readEntries_hexChars (queue : List (List UInt8)) :
    readEntries (queue.map hexChars) = .ok (queue.filter fun e => e ≠ []) := by
  induction queue with
  | nil => rfl
  | cons e queue ih =>
    rw [List.map_cons, readEntries, ih]
    cases e with
    | nil => rfl
    | cons b e =>
      rw [if_neg (by simp [hexChars]), ← hexEncode_eq, hexDecode_hexEncode]
      rfl

theorem ok_bind {ε α β : Type} (a : α) (f : α → Except ε β) : (Except.ok a >>= f) = f a := rfl

section

variable {json : SerdeJson} (hheader : ∀ h : SpoolPersistHeader, json.headerFromStr h.text = .ok h)

include hheader

theorem readPersisted_persist (s : EncryptedSpool) :
    readPersisted json s.persist =
      if (s.queue.filter fun e => e ≠ []).length ≠ s.header.entryCount.toNat then
        .error ("Entry count mismatch: expected " ++ toString s.header.entryCount.toNat ++
          ", got " ++ toString (s.queue.filter fun e => e ≠ []).length)
      else .ok (s.header, s.queue.filter fun e => e ≠ []) := by
  unfold readPersisted
  rw [persist_eq, fromUtf8_asBytes]
  simp only [Except.mapError, ok_bind]
  rw [String.toList_ofList, lines_persist, persistLines]
  simp only [String.ofList_toList, hheader, readEntries_hexChars, ok_bind]

/-- A spool restored from another's bytes takes over its counters and its entries, or is left
as it was. -/
theorem restore_persist_cases (s t : EncryptedSpool) :
    (t.restore json s.persist).1 = t ∨
      ((s.queue.filter fun e => e ≠ []).length = s.header.entryCount.toNat ∧
        (t.restore json s.persist).1 = t.resumed s.header (s.queue.filter fun e => e ≠ [])) := by
  unfold restore
  rw [readPersisted_persist hheader]
  split_ifs with hcount
  · exact Or.inl rfl
  · exact Or.inr ⟨not_not.mp hcount, rfl⟩

/-- The round trip: entries are never empty and the count fits its field. -/
theorem restore_persist (s t : EncryptedSpool) (hne : ∀ e ∈ s.queue, e ≠ [])
    (hlength : s.queue.length < 2 ^ 64) :
    t.restore json s.persist = (t.resumed s.header s.queue, .ok s.queue.length) := by
  have hfilter : (s.queue.filter fun e => e ≠ []) = s.queue :=
    List.filter_eq_self.mpr fun e he => decide_eq_true (hne e he)
  have hcount : s.header.entryCount.toNat = s.queue.length :=
    UInt64.toNat_ofNat_of_lt hlength
  unfold restore
  rw [readPersisted_persist hheader, hfilter, hcount, if_neg (not_not.mpr rfl)]

end

theorem restore_error {json : SerdeJson} {s : EncryptedSpool} {data : List UInt8} {message : String}
    (h : (s.restore json data).2 = .error message) : (s.restore json data).1 = s := by
  unfold restore at h ⊢
  split
  · rfl
  · rename_i header queue hread
    rw [hread] at h
    cases h

end EncryptedSpool

end Wardex.Spool
