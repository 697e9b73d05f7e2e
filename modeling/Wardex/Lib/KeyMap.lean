import Mathlib.Data.List.Induction
import Mathlib.Data.List.Nodup
import Mathlib.Logic.Function.Basic

/-! Maps from keys to values, as functions to an optional value; files as such a map from paths to
contents, with the copying and renaming of one file; second maps that find the key of a record
by one of the record's fields; and the list that keeps the latest entry of each key of a log. -/

namespace Wardex.Lib

section

section

abbrev KeyMap (κ α : Type*) := κ → Option α

namespace KeyMap

variable {κ α : Type*}

def empty : KeyMap κ α := fun _ => none

@[simp] theorem empty_apply (k : κ) : (empty : KeyMap κ α) k = none := rfl

variable [DecidableEq κ]

def insert (m : KeyMap κ α) (k : κ) (v : α) : KeyMap κ α := Function.update m k (some v)

def erase (m : KeyMap κ α) (k : κ) : KeyMap κ α := Function.update m k none

def modify (m : KeyMap κ α) (k : κ) (f : α → α) : KeyMap κ α := Function.update m k ((m k).map f)

variable (m : KeyMap κ α) {k l : κ}

theorem insert_apply (k l : κ) (v : α) : m.insert k v l = if l = k then some v else m l :=
  Function.update_apply m k (some v) l

@[simp] theorem insert_self (k : κ) (v : α) : m.insert k v k = some v := Function.update_self ..

theorem insert_of_ne (h : l ≠ k) (v : α) : m.insert k v l = m l := Function.update_of_ne h ..

@[simp] theorem erase_self (k : κ) : m.erase k k = none := Function.update_self ..

theorem erase_of_ne (h : l ≠ k) : m.erase k l = m l := Function.update_of_ne h ..

@[simp] theorem modify_self (k : κ) (f : α → α) : m.modify k f k = (m k).map f :=
  Function.update_self ..

theorem modify_of_ne (h : l ≠ k) (f : α → α) : m.modify k f l = m l := Function.update_of_ne h ..

end KeyMap

/-! ## Files -/

namespace KeyMap

variable {κ α : Type*} [DecidableEq κ]

/-- Without a file at `src` nothing is copied. -/
def copy (files : KeyMap κ α) (src dst : κ) : KeyMap κ α :=
  (files src).elim files (files.insert dst)

/-- Without a file at `src` nothing is renamed. -/
def rename (files : KeyMap κ α) (src dst : κ) : KeyMap κ α :=
  (files src).elim files ((files.erase src).insert dst)

variable {files : KeyMap κ α} {src dst path : κ} {a : α}

theorem copy_of_none (h : files src = none) : files.copy src dst = files := by
  rw [copy, h, Option.elim_none]

theorem copy_of_some (h : files src = some a) : files.copy src dst = files.insert dst a := by
  rw [copy, h, Option.elim_some]

theorem copy_dst (h : files src = some a) : files.copy src dst dst = some a := by
  rw [copy_of_some h, insert_self]

theorem copy_of_ne (h : path ≠ dst) : files.copy src dst path = files path := by
  cases hsrc : files src with
  | none => rw [copy_of_none hsrc]
  | some a => rw [copy_of_some hsrc, insert_of_ne _ h]

theorem rename_of_none (h : files src = none) : files.rename src dst = files := by
  rw [rename, h, Option.elim_none]

theorem rename_dst (h : files src = some a) : files.rename src dst dst = some a := by
  rw [rename, h, Option.elim_some, insert_self]

theorem rename_src (h : src ≠ dst) : files.rename src dst src = none := by
  cases hsrc : files src with
  | none => rw [rename_of_none hsrc, hsrc]
  | some a => rw [rename, hsrc, Option.elim_some, insert_of_ne _ h, erase_self]

theorem rename_of_ne (hsrc : path ≠ src) (hdst : path ≠ dst) :
    files.rename src dst path = files path := by
  cases h : files src with
  | none => rw [rename_of_none h]
  | some a => rw [rename, h, Option.elim_some, insert_of_ne _ hdst, erase_of_ne _ hsrc]

/-- What is at the target after a rename: the file that was moved there, or the one that was. -/
theorem rename_dst_eq : files.rename src dst dst = (files src).or (files dst) := by
  cases h : files src with
  | none => rw [rename_of_none h, Option.none_or]
  | some a => rw [rename_dst h, Option.some_or]

end KeyMap

end

/-! ## Indexes -/

variable {κ ι α : Type*} {field : α → ι} {m : KeyMap κ α} {index : KeyMap ι κ}

/-- `index` finds exactly the records of `m`, each by its field. -/
def Indexes (field : α → ι) (m : KeyMap κ α) (index : KeyMap ι κ) : Prop :=
  ∀ i k, index i = some k ↔ ∃ a, m k = some a ∧ field a = i

theorem indexes_empty : Indexes field (KeyMap.empty : KeyMap κ α) KeyMap.empty := by
  intro i k
  constructor
  · exact fun h => nomatch h
  · rintro ⟨a, h, _⟩
    cases h

/-- A lookup by the field followed by a lookup by the key. -/
theorem Indexes.bind_eq_some (h : Indexes field m index) {i : ι} {a : α} :
    (index i).bind m = some a ↔ ∃ k, m k = some a ∧ field a = i := by
  rw [Option.bind_eq_some_iff]
  constructor
  · rintro ⟨k, hk, ha⟩
    obtain ⟨b, hb, hfield⟩ := (h i k).mp hk
    obtain rfl : b = a := Option.some.inj (hb.symm.trans ha)
    exact ⟨k, ha, hfield⟩
  · rintro ⟨k, ha, hfield⟩
    exact ⟨k, (h i k).mpr ⟨a, ha, hfield⟩, ha⟩

variable [DecidableEq κ]

theorem Indexes.modify (h : Indexes field m index) (k : κ) {f : α → α}
    (hf : ∀ a, field (f a) = field a) : Indexes field (m.modify k f) index := by
  intro i l
  rw [h i l]
  by_cases hl : l = k
  · subst hl
    rw [m.modify_self]
    constructor
    · rintro ⟨a, ha, hi⟩
      exact ⟨f a, by rw [ha, Option.map_some], by rw [hf, hi]⟩
    · rintro ⟨b, hb, hi⟩
      obtain ⟨a, ha, rfl⟩ := Option.map_eq_some_iff.mp hb
      exact ⟨a, ha, by rw [← hf, hi]⟩
  · rw [m.modify_of_ne hl]

variable [DecidableEq ι]

theorem Indexes.erase (h : Indexes field m index) {k : κ} {a : α} (hk : m k = some a) :
    Indexes field (m.erase k) (index.erase (field a)) := by
  intro i l
  by_cases hl : l = k
  · subst hl
    rw [m.erase_self]
    by_cases hi : i = field a
    · subst hi
      simp
    · rw [index.erase_of_ne hi, h i l, hk]
      simp [Ne.symm hi]
  · rw [m.erase_of_ne hl, ← h i l]
    by_cases hi : i = field a
    · subst hi
      have hindex := (h (field a) k).mpr ⟨a, hk, rfl⟩
      simp [hindex, Ne.symm hl]
    · rw [index.erase_of_ne hi]

theorem Indexes.insert_new (h : Indexes field m index) {k : κ} (hk : m k = none) {a : α}
    (hfresh : ∀ l b, m l = some b → field b ≠ field a) :
    Indexes field (m.insert k a) (index.insert (field a) k) := by
  intro i l
  by_cases hi : i = field a
  · subst hi
    rw [index.insert_self]
    by_cases hl : l = k
    · subst hl
      simp
    · rw [m.insert_of_ne hl]
      refine ⟨fun heq => absurd (Option.some.inj heq).symm hl, ?_⟩
      rintro ⟨b, hb, hfield⟩
      exact absurd hfield (hfresh l b hb)
  · rw [index.insert_of_ne hi, h i l]
    by_cases hl : l = k
    · subst hl
      rw [m.insert_self, hk]
      simp [Ne.symm hi]
    · rw [m.insert_of_ne hl]

/-- A record that takes the place of the one under its key. -/
theorem Indexes.replace (h : Indexes field m index) {k : κ} {old : α} (hk : m k = some old) {a : α}
    (hfresh : ∀ l b, l ≠ k → m l = some b → field b ≠ field a) :
    Indexes field (m.insert k a) ((index.erase (field old)).insert (field a) k) := by
  have herased := h.erase hk
  have hnew := herased.insert_new (a := a) (m.erase_self k) fun l b hb => by
    by_cases hl : l = k
    · subst hl
      rw [m.erase_self] at hb
      cases hb
    · exact hfresh l b hl (by rwa [m.erase_of_ne hl] at hb)
  have hsame : (m.erase k).insert k a = m.insert k a := Function.update_idem ..
  rwa [hsame] at hnew

end

/-! ## The latest entry of each key -/

variable {κ α : Type*} [DecidableEq κ]

def supersede (entries : List (κ × α)) (e : κ × α) : List (κ × α) :=
  entries.filter (fun f => f.1 ≠ e.1) ++ [e]

/-- What is left of a log whose entries supersede one another. -/
def current (log : List (κ × α)) : List (κ × α) := log.foldl supersede []

def latest (log : List (κ × α)) (k : κ) : Option α := log.reverse.lookup k

variable {log : List (κ × α)} {e : κ × α} {k : κ} {a : α}

theorem current_concat : current (log ++ [e]) = supersede (current log) e := by
  rw [current, List.foldl_append, List.foldl_cons, List.foldl_nil, current]

theorem latest_concat : latest (log ++ [e]) k = if k = e.1 then some e.2 else latest log k := by
  rw [latest, List.reverse_append, List.reverse_singleton, List.singleton_append, List.lookup_cons]
  split_ifs with h
  · rw [beq_iff_eq.mpr h]
  · rw [beq_eq_false_iff_ne.mpr h]
    rfl

theorem nodup_keys_current : ((current log).map Prod.fst).Nodup := by
  induction log using List.reverseRecOn with
  | nil => exact List.nodup_nil
  | append_singleton log e ih =>
    rw [current_concat, supersede, List.map_append, List.nodup_append]
    refine ⟨ih.sublist (List.filter_sublist.map _), List.nodup_singleton _, ?_⟩
    intro x hx y hy hxy
    obtain ⟨f, hf, rfl⟩ := List.mem_map.mp hx
    obtain rfl := List.mem_singleton.mp hy
    exact absurd hxy (of_decide_eq_true (List.mem_filter.mp hf).2)

theorem mem_current : (k, a) ∈ current log ↔ latest log k = some a := by
  induction log using List.reverseRecOn with
  | nil => exact iff_of_false (List.not_mem_nil) nofun
  | append_singleton log e ih =>
    rw [current_concat, latest_concat, supersede, List.mem_append, List.mem_filter,
      List.mem_singleton, ih]
    split_ifs with h
    · subst h
      simp [Prod.ext_iff, eq_comm]
    · simp [Prod.ext_iff, h]

end Wardex.Lib
