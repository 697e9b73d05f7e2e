import Mathlib.Data.List.AList

/-! Hash maps, as their entries in the order in which they are gone through.  What is found by a
search over the values depends on that order as soon as two of them fit. -/

namespace Wardex.Lib

abbrev HashTable (κ α : Type*) := AList fun _ : κ => α

namespace HashTable

variable {κ α : Type*} (m m' : HashTable κ α)

def values : List α := m.entries.map Sigma.snd

/-- The same entries, gone through in another order. -/
def Reordered : Prop := m.entries.Perm m'.entries

theorem Reordered.values_perm {m m' : HashTable κ α} (h : m.Reordered m') :
    m.values.Perm m'.values := by
  rw [values, values]
  exact h.map _

/-- The order in which a map is gone through, which nothing is known about. -/
structure IterationOrder (κ α : Type*) where
  arrange : HashTable κ α → HashTable κ α
  reordered : ∀ table, Reordered table (arrange table)

/-- The entries as they are. -/
def IterationOrder.asIs : IterationOrder κ α := ⟨id, fun _ => List.Perm.refl _⟩

variable [DecidableEq κ]

def modify (k : κ) (f : α → α) : HashTable κ α :=
  match m.lookup k with
  | some v => m.insert k (f v)
  | none => m

variable {m m'} {k l : κ} {v w : α} {p : α → Bool}

@[simp] theorem lookup_modify_self (k : κ) (f : α → α) :
    (m.modify k f).lookup k = (m.lookup k).map f := by
  unfold modify
  cases h : m.lookup k with
  | none => exact h
  | some v => exact AList.lookup_insert m

theorem lookup_modify_of_ne (h : l ≠ k) (f : α → α) : (m.modify k f).lookup l = m.lookup l := by
  unfold modify
  cases m.lookup k with
  | none => rfl
  | some v => exact AList.lookup_insert_ne h

theorem mem_values : v ∈ m.values ↔ ∃ k, m.lookup k = some v := by
  constructor
  · intro h
    obtain ⟨⟨k, w⟩, hmem, rfl⟩ := List.mem_map.mp h
    exact ⟨k, AList.mem_lookup_iff.mpr hmem⟩
  · rintro ⟨k, hk⟩
    exact List.mem_map.mpr ⟨⟨k, v⟩, AList.mem_lookup_iff.mp hk, rfl⟩

theorem lookup_of_reordered (h : m.Reordered m') (k : κ) : m'.lookup k = m.lookup k :=
  (AList.perm_lookup h).symm

/-- The values of a table whose keys are known, in the order of those up to a permutation. -/
theorem values_perm {keys : List κ} {f : κ → α} (hkeys : keys.Nodup)
    (h : ∀ k, m.lookup k = if k ∈ keys then some (f k) else none) :
    m.values.Perm (keys.map f) := by
  have hvalues : m.values = m.keys.map f := by
    rw [values, AList.keys, List.keys, List.map_map]
    refine List.map_congr_left fun entry hentry => ?_
    have hlookup : m.lookup entry.1 = some entry.2 := AList.mem_lookup_iff.mpr hentry
    rw [h] at hlookup
    split_ifs at hlookup
    exact (Option.some.inj hlookup).symm
  have hmem : ∀ k, k ∈ m.keys ↔ k ∈ keys := by
    intro k
    rw [← AList.mem_keys, ← AList.lookup_isSome, h]
    split_ifs with hk <;> simp [hk]
  rw [hvalues]
  exact ((List.perm_ext_iff_of_nodup m.keys_nodup hkeys).mpr hmem).map f

/-- Where at most one value fits, a search finds it. -/
theorem find?_values_eq_some (hunique : ∀ v w, v ∈ m.values → w ∈ m.values → p v → p w → v = w) :
    m.values.find? p = some v ↔ p v ∧ ∃ k, m.lookup k = some v := by
  rw [← mem_values]
  constructor
  · exact fun h => ⟨List.find?_some h, List.mem_of_find?_eq_some h⟩
  · rintro ⟨hp, hmem⟩
    cases hfind : m.values.find? p with
    | none => exact absurd hp (List.find?_eq_none.mp hfind v hmem)
    | some w =>
      rw [hunique w v (List.mem_of_find?_eq_some hfind) hmem (List.find?_some hfind) hp]

/-! ## Entries that are kept, and values that are written back -/

/-- The entries whose values fit. -/
def retain (m : HashTable κ α) (p : α → Bool) : HashTable κ α where
  entries := m.entries.filter fun entry => p entry.2
  nodupKeys := m.nodupKeys.sublist List.filter_sublist

theorem lookup_retain (p : α → Bool) (k : κ) : (m.retain p).lookup k = (m.lookup k).filter p := by
  ext v
  have hkept := AList.mem_lookup_iff (s := m.retain p) (a := k) (b := v)
  have hthere := AList.mem_lookup_iff (s := m) (a := k) (b := v)
  rw [retain, List.mem_filter] at hkept
  rw [Option.mem_def] at hkept hthere
  rw [Option.filter_eq_some_iff, retain, hkept, hthere]

omit [DecidableEq κ] in
theorem values_retain (p : α → Bool) : (m.retain p).values = m.values.filter p := by
  rw [values, values, retain, List.filter_map]
  rfl

omit [DecidableEq κ] in
theorem length_values_retain (p : α → Bool) :
    (m.retain p).values.length + (m.values.filter fun v => !p v).length = m.values.length := by
  rw [values_retain]
  exact (List.filter_append_perm p m.values).length_eq ▸ List.length_append.symm

/-- Tables in which the same is found hold the same entries. -/
theorem reordered_of_lookup (h : ∀ k, m.lookup k = m'.lookup k) : m.Reordered m' := by
  refine List.lookup_ext m.nodupKeys m'.nodupKeys fun k v => ?_
  exact Iff.of_eq (congrArg (fun found => v ∈ found) (h k))

omit [DecidableEq κ] in
def mapValues (m : HashTable κ α) (f : α → α) : HashTable κ α where
  entries := m.entries.map fun entry => ⟨entry.1, f entry.2⟩
  nodupKeys := by
    rw [List.NodupKeys, List.keys, List.map_map]
    exact m.nodupKeys

theorem lookup_mapValues (f : α → α) (k : κ) :
    (m.mapValues f).lookup k = (m.lookup k).map f :=
  List.dlookup_map₂ (f := fun _ => f) k

omit [DecidableEq κ] in
theorem values_mapValues (f : α → α) : (m.mapValues f).values = m.values.map f := by
  rw [values, values, mapValues, List.map_map, List.map_map]
  rfl

/-- Values, each written under its own key. -/
def insertAll (key : α → κ) (m : HashTable κ α) (l : List α) : HashTable κ α :=
  l.foldl (fun m v => m.insert (key v) v) m

theorem lookup_insertAll_of_not_mem {key : α → κ} {l : List α} (h : k ∉ l.map key) :
    (insertAll key m l).lookup k = m.lookup k := by
  induction l generalizing m with
  | nil => rfl
  | cons v l ih =>
    rw [List.map_cons, List.mem_cons, not_or] at h
    have hrest : (insertAll key m (v :: l)).lookup k = (m.insert (key v) v).lookup k := ih h.2
    rw [hrest, AList.lookup_insert_ne h.1]

theorem lookup_insertAll_of_mem {key : α → κ} {l : List α} (hkeys : (l.map key).Nodup)
    (hv : v ∈ l) : (insertAll key m l).lookup (key v) = some v := by
  induction l generalizing m with
  | nil => cases hv
  | cons w l ih =>
    rw [List.map_cons, List.nodup_cons] at hkeys
    rcases List.mem_cons.mp hv with rfl | hl
    · have hrest : (insertAll key m (v :: l)).lookup (key v) =
          (m.insert (key v) v).lookup (key v) := lookup_insertAll_of_not_mem hkeys.1
      rw [hrest, AList.lookup_insert]
    · exact ih hkeys.2 hl

/-- Every value is found under the key that can be read off it. -/
def KeyedBy (key : α → κ) (m : HashTable κ α) : Prop := ∀ k v, m.lookup k = some v → key v = k

theorem KeyedBy.reordered {key : α → κ} (h : m.KeyedBy key) (hr : m.Reordered m') :
    m'.KeyedBy key := fun k v hk => h k v ((lookup_of_reordered hr k).symm.trans hk)

theorem KeyedBy.nodup_filterMap {key : α → κ} {f : α → Option α} (h : m.KeyedBy key)
    (hf : ∀ v w, f v = some w → key w = key v) : ((m.values.filterMap f).map key).Nodup := by
  have hall : m.values.map key = m.keys := by
    rw [values, List.map_map, AList.keys, List.keys]
    refine List.map_congr_left fun entry hentry => ?_
    exact h entry.1 entry.2 (AList.mem_lookup_iff.mpr hentry)
  have hsub : ((m.values.filterMap f).map key).Sublist (m.values.map key) := by
    induction m.values with
    | nil => exact List.Sublist.refl _
    | cons v l ih =>
      cases hv : f v with
      | none =>
        rw [List.filterMap_cons_none hv, List.map_cons]
        exact ih.cons _
      | some w =>
        rw [List.filterMap_cons_some hv, List.map_cons, List.map_cons, hf v w hv]
        exact ih.cons_cons _
  exact (hall ▸ m.keys_nodup).sublist hsub

/-- What is made of the values of a table is written back under the keys they were found at. -/
theorem lookup_insertAll_filterMap {key : α → κ} {f : α → Option α} (h : m.KeyedBy key)
    (hf : ∀ v w, f v = some w → key w = key v) (hr : m.Reordered m') (k : κ) :
    (insertAll key m (m'.values.filterMap f)).lookup k =
      (m.lookup k).map fun v => (f v).getD v := by
  have hfrom : ∀ w ∈ m'.values.filterMap f, key w = k →
      ∃ v, m.lookup k = some v ∧ f v = some w := by
    rintro w hw rfl
    obtain ⟨v, hv, hfv⟩ := List.mem_filterMap.mp hw
    obtain ⟨l, hl⟩ := mem_values.mp hv
    refine ⟨v, ?_, hfv⟩
    rw [hf v w hfv, h.reordered hr l v hl, ← lookup_of_reordered hr, hl]
  by_cases hk : ∃ v w, m.lookup k = some v ∧ f v = some w
  · obtain ⟨v, w, hv, hfv⟩ := hk
    have hmem : w ∈ m'.values.filterMap f := by
      refine List.mem_filterMap.mpr ⟨v, mem_values.mpr ⟨k, ?_⟩, hfv⟩
      exact (lookup_of_reordered hr k).trans hv
    have hwritten := lookup_insertAll_of_mem (m := m) ((h.reordered hr).nodup_filterMap hf) hmem
    rw [hf v w hfv, h k v hv] at hwritten
    rw [hwritten, hv, Option.map_some, hfv]
    rfl
  · have hout : k ∉ (m'.values.filterMap f).map key := by
      intro hmem
      obtain ⟨w, hw, heq⟩ := List.mem_map.mp hmem
      obtain ⟨v, hv, hfv⟩ := hfrom w hw heq
      exact hk ⟨v, w, hv, hfv⟩
    rw [lookup_insertAll_of_not_mem hout]
    cases hv : m.lookup k with
    | none => rfl
    | some v =>
      have hfv : f v = none := by
        by_contra hsome
        obtain ⟨w, hw⟩ := Option.ne_none_iff_exists'.mp hsome
        exact hk ⟨v, w, hv, hw⟩
      rw [Option.map_some, hfv]
      rfl

end HashTable

end Wardex.Lib
