import Mathlib.Algebra.BigOperators.Group.List.Lemmas
import Mathlib.Algebra.GroupWithZero.Nat
import Mathlib.Data.Finset.Card
import Mathlib.Data.List.Dedup
import Mathlib.Data.List.Forall2
import Mathlib.Data.List.Perm.Basic
import Mathlib.Data.List.Sort

/-! Hash maps from keys to the list of values pushed under them, and the order in which such a
map is walked through, which is any order of its keys. -/

namespace Wardex.Lib

structure IterationOrder (κ : Type*) where
  order : List κ → List κ
  perm : ∀ keys, (order keys).Perm keys

variable {κ α : Type*}

def insertionOrder : IterationOrder κ := ⟨id, fun _ => List.Perm.refl _⟩

def reverseOrder : IterationOrder κ := ⟨List.reverse, fun _ => List.reverse_perm _⟩

variable [DecidableEq κ]

/-- The values that were pushed under a key. -/
def valuesAt (entries : List (κ × α)) (k : κ) : List α :=
  (entries.filter fun entry => entry.1 = k).map Prod.snd

/-- The groups of a map to which the entries were pushed, as they are walked through. -/
def groups (o : IterationOrder κ) (entries : List (κ × α)) : List (κ × List α) :=
  (o.order (entries.map Prod.fst).dedup).map fun k => (k, valuesAt entries k)

variable {o : IterationOrder κ} {entries : List (κ × α)} {k : κ} {a : α} {group : List α}

theorem mem_valuesAt : a ∈ valuesAt entries k ↔ (k, a) ∈ entries := by
  rw [valuesAt, List.mem_map]
  constructor
  · rintro ⟨⟨l, b⟩, hentry, rfl⟩
    obtain ⟨hmem, hkey⟩ := List.mem_filter.mp hentry
    obtain rfl := of_decide_eq_true hkey
    exact hmem
  · exact fun h => ⟨(k, a), List.mem_filter.mpr ⟨h, decide_eq_true rfl⟩, rfl⟩

theorem mem_groups :
    (k, group) ∈ groups o entries ↔ k ∈ entries.map Prod.fst ∧ group = valuesAt entries k := by
  rw [groups, List.mem_map]
  constructor
  · rintro ⟨l, hl, heq⟩
    obtain ⟨rfl, rfl⟩ := Prod.mk.inj heq
    exact ⟨List.mem_dedup.mp ((o.perm _).mem_iff.mp hl), rfl⟩
  · rintro ⟨hk, rfl⟩
    exact ⟨k, (o.perm _).mem_iff.mpr (List.mem_dedup.mpr hk), rfl⟩

theorem nodup_groups (o : IterationOrder κ) (entries : List (κ × α)) :
    ((groups o entries).map Prod.fst).Nodup := by
  have hkeys : (groups o entries).map Prod.fst = o.order (entries.map Prod.fst).dedup := by
    rw [groups, List.map_map]
    exact List.map_id _
  rw [hkeys, (o.perm _).nodup_iff]
  exact List.nodup_dedup _

theorem groups_perm (o : IterationOrder κ) (entries : List (κ × α)) :
    (groups o entries).Perm (groups insertionOrder entries) := (o.perm _).map _

/-- Where the values are pushed under keys of their own, those of one key are selected by it. -/
theorem valuesAt_map (key : α → κ) (l : List α) (k : κ) :
    valuesAt (l.map fun a => (key a, a)) k = l.filter fun a => key a = k := by
  rw [valuesAt, List.filter_map, List.map_map]
  exact List.map_id _

theorem two_le_length_dedup_iff {keys : List κ} :
    2 ≤ keys.dedup.length ↔ ∃ k ∈ keys, ∃ l ∈ keys, k ≠ l := by
  have hcard := Finset.one_lt_card (s := keys.toFinset)
  rw [List.card_toFinset] at hcard
  simp only [List.mem_toFinset] at hcard
  exact hcard

omit [DecidableEq κ] in
/-- Lists for keys of which one only has something in its list. -/
theorem flatMap_eq_of_mem {β : Type*} {keys : List κ} {f : κ → List β} (hkeys : keys.Nodup)
    (hk : k ∈ keys) (h : ∀ l ∈ keys, l ≠ k → f l = []) : keys.flatMap f = f k := by
  obtain ⟨before, after, rfl⟩ := List.append_of_mem hk
  obtain ⟨-, hafter, hapart⟩ := List.nodup_append.mp hkeys
  have hbefore : before.flatMap f = [] := by
    refine List.flatMap_eq_nil_iff.mpr fun l hl => h l (List.mem_append_left _ hl) ?_
    exact fun heq => hapart l hl k List.mem_cons_self heq
  have hbehind : after.flatMap f = [] := by
    refine List.flatMap_eq_nil_iff.mpr fun l hl =>
      h l (List.mem_append_right _ (List.mem_cons_of_mem _ hl)) ?_
    exact fun heq => (List.nodup_cons.mp hafter).1 (heq ▸ hl)
  rw [List.flatMap_append, List.flatMap_cons, hbefore, hbehind, List.nil_append, List.append_nil]

/-- Selected by one key after the other, the elements are those with one of the keys. -/
theorem flatMap_filter_perm {keys : List κ} (hkeys : keys.Nodup) (key : α → κ) (l : List α) :
    (keys.flatMap fun k => l.filter fun a => key a = k).Perm (l.filter fun a => key a ∈ keys) := by
  induction keys with
  | nil => rw [List.flatMap_nil, List.filter_eq_nil_iff.mpr (by simp)]
  | cons k keys ih =>
    obtain ⟨hk, hkeys⟩ := List.nodup_cons.mp hkeys
    have hfirst : ((l.filter fun a => key a ∈ k :: keys).filter fun a => key a = k) =
        l.filter fun a => key a = k := by
      rw [List.filter_filter]
      refine List.filter_congr fun a _ => ?_
      simp only [List.mem_cons, Bool.decide_or, Bool.and_or_distrib_left, Bool.and_self]
      by_cases heq : key a = k <;> simp [heq]
    have hrest : ((l.filter fun a => key a ∈ k :: keys).filter fun a => !decide (key a = k)) =
        l.filter fun a => key a ∈ keys := by
      rw [List.filter_filter]
      refine List.filter_congr fun a _ => ?_
      by_cases heq : key a = k <;> simp [heq, hk]
    rw [List.flatMap_cons]
    refine ((ih hkeys).append_left _).trans ?_
    have hsplit := List.filter_append_perm (fun a => decide (key a = k))
      (l.filter fun a => key a ∈ k :: keys)
    rwa [hfirst, hrest] at hsplit

/-- The groups of values that are pushed under keys of their own hold all the values. -/
theorem flatMap_groups_perm (o : IterationOrder κ) (key : α → κ) (l : List α) :
    ((groups o (l.map fun a => (key a, a))).flatMap Prod.snd).Perm l := by
  have hkeys : ((l.map fun a => (key a, a)).map Prod.fst) = l.map key := by
    rw [List.map_map]
    rfl
  have hgroups : (groups o (l.map fun a => (key a, a))).flatMap Prod.snd =
      (o.order (l.map key).dedup).flatMap fun k => l.filter fun a => key a = k := by
    rw [groups, hkeys, List.flatMap_map]
    exact List.flatMap_congr fun k _ => valuesAt_map key l k
  have hall : (l.filter fun a => key a ∈ o.order (l.map key).dedup) = l := by
    refine List.filter_eq_self.mpr fun a ha => decide_eq_true ?_
    exact (o.perm _).mem_iff.mpr (List.mem_dedup.mpr (List.mem_map_of_mem ha))
  have hperm := flatMap_filter_perm ((o.perm _).nodup_iff.mpr (List.nodup_dedup (l.map key))) key l
  rwa [hall, ← hgroups] at hperm

/-! ## Keys in ascending order -/

section

variable {κ α : Type*} [LinearOrder κ] {keys keys' : List κ} {entries entries' : List (κ × α)}

/-- The order in which a sorted map is walked through. -/
def ascendingOrder : IterationOrder κ :=
  ⟨fun keys => keys.insertionSort (· ≤ ·), fun keys => List.perm_insertionSort _ keys⟩

/-- The distinct keys of a list, sorted. -/
def sortedKeys (keys : List κ) : List κ := keys.dedup.insertionSort (· ≤ ·)

theorem sortedKeys_perm (keys : List κ) : (sortedKeys keys).Perm keys.dedup :=
  List.perm_insertionSort _ _

theorem mem_sortedKeys {k : κ} : k ∈ sortedKeys keys ↔ k ∈ keys :=
  (sortedKeys_perm keys).mem_iff.trans List.mem_dedup

theorem nodup_sortedKeys (keys : List κ) : (sortedKeys keys).Nodup :=
  (sortedKeys_perm keys).nodup_iff.mpr (List.nodup_dedup keys)

theorem sortedKeys_eq_of_perm (h : keys.Perm keys') : sortedKeys keys = sortedKeys keys' := by
  have hsorted (keys : List κ) : (sortedKeys keys).Pairwise (· ≤ ·) :=
    List.pairwise_insertionSort _ _
  exact List.Perm.eq_of_pairwise' (hsorted keys) (hsorted keys')
    ((sortedKeys_perm keys).trans (h.dedup.trans (sortedKeys_perm keys').symm))

theorem map_eq_of_forall₂ {β γ δ : Type*} {R : β → γ → Prop} {f : β → δ} {g : γ → δ} {l : List β}
    {l' : List γ} (h : List.Forall₂ R l l') (hfg : ∀ b c, R b c → f b = g c) :
    l.map f = l'.map g := by
  induction h with
  | nil => rfl
  | cons hhead _ ih => rw [List.map_cons, List.map_cons, hfg _ _ hhead, ih]

theorem exists_of_forall₂ {β γ : Type*} {R : β → γ → Prop} {l : List β} {l' : List γ}
    (h : List.Forall₂ R l l') {b : β} (hb : b ∈ l) : ∃ c ∈ l', R b c := by
  induction h with
  | nil => cases hb
  | cons hhead _ ih =>
    rcases List.mem_cons.mp hb with rfl | hb
    · exact ⟨_, List.mem_cons_self, hhead⟩
    · obtain ⟨c, hc, hrelated⟩ := ih hb
      exact ⟨c, List.mem_cons_of_mem _ hc, hrelated⟩

theorem exists_of_forall₂_right {β γ : Type*} {R : β → γ → Prop} {l : List β} {l' : List γ}
    (h : List.Forall₂ R l l') {c : γ} (hc : c ∈ l') : ∃ b ∈ l, R b c :=
  exists_of_forall₂ (R := flip R) (List.Forall₂.flip h) hc

/-- In a sorted map, the groups of the same entries in another order hold the same values. -/
theorem forall₂_groups (h : entries.Perm entries') :
    List.Forall₂ (fun g g' => g.1 = g'.1 ∧ g.2.Perm g'.2) (groups ascendingOrder entries)
      (groups ascendingOrder entries') := by
  have hkeys : ascendingOrder.order (entries.map Prod.fst).dedup =
      ascendingOrder.order (entries'.map Prod.fst).dedup := sortedKeys_eq_of_perm (h.map _)
  rw [groups, groups, hkeys, List.forall₂_map_left_iff, List.forall₂_map_right_iff,
    List.forall₂_same]
  exact fun k _ => ⟨rfl, (h.filter _).map _⟩

end

/-! ## Tallies -/

/-- The keys of a list with the number of times that each is there. -/
def tally (keys : List κ) : List (κ × ℕ) := keys.dedup.map fun k => (k, keys.count k)

variable {keys keys' : List κ}

theorem map_fst_tally (keys : List κ) : (tally keys).map Prod.fst = keys.dedup := by
  rw [tally, List.map_map]
  exact List.map_id _

theorem sum_tally (keys : List κ) : ((tally keys).map Prod.snd).sum = keys.length := by
  rw [tally, List.map_map]
  exact List.sum_map_count_dedup_eq_length keys

theorem tally_append (h : keys.Disjoint keys') :
    tally (keys ++ keys') = tally keys ++ tally keys' := by
  rw [tally, List.Disjoint.dedup_append h, List.map_append]
  refine congrArg₂ (· ++ ·) (List.map_congr_left fun k hk => ?_)
    (List.map_congr_left fun k hk => ?_)
  · have hout : k ∉ keys' := fun hk' => h (List.mem_dedup.mp hk) hk'
    rw [List.count_append, List.count_eq_zero_of_not_mem hout, Nat.add_zero]
  · have hout : k ∉ keys := fun hk' => h hk' (List.mem_dedup.mp hk)
    rw [List.count_append, List.count_eq_zero_of_not_mem hout, Nat.zero_add]

theorem tally_replicate {n : ℕ} (hn : n ≠ 0) (k : κ) : tally (List.replicate n k) = [(k, n)] := by
  rw [tally, List.replicate_dedup hn, List.map_singleton, List.count_replicate_self]

theorem tally_perm (h : keys.Perm keys') : (tally keys).Perm (tally keys') := by
  have hcount : (fun k => (k, keys.count k)) = fun k => (k, keys'.count k) := by
    funext k
    rw [h.count_eq]
  rw [tally, hcount]
  exact h.dedup.map _

/-- The sizes of the groups of a map under whose keys they themselves were pushed. -/
theorem groups_perm_tally (o : IterationOrder κ) (keys : List κ) :
    ((groups o (keys.map fun k => (k, k))).map fun group => (group.1, group.2.length)).Perm
      (tally keys) := by
  have hkeys : (keys.map fun k => (k, k)).map Prod.fst = keys := by
    rw [List.map_map]
    exact List.map_id _
  have hlength (k : κ) : (valuesAt (keys.map fun k => (k, k)) k).length = keys.count k := by
    have hvalues : valuesAt (keys.map fun k => (k, k)) k = keys.filter fun l => l = k :=
      valuesAt_map (fun k => k) keys k
    rw [hvalues, List.count_eq_length_filter]
    rfl
  rw [groups, hkeys, List.map_map, tally]
  simp only [Function.comp_def, hlength]
  exact (o.perm _).map _

/-! ## Every order is an order of iteration -/

theorem exists_perm_map_eq {β : Type*} {f : α → β} {l : List α} {l' : List β}
    (h : l'.Perm (l.map f)) : ∃ m : List α, m.Perm l ∧ m.map f = l' := by
  induction l' generalizing l with
  | nil =>
    obtain rfl := List.map_eq_nil_iff.mp h.nil_eq.symm
    exact ⟨[], List.Perm.refl _, rfl⟩
  | cons b l' ih =>
    obtain ⟨a, ha, rfl⟩ := List.mem_map.mp (h.subset List.mem_cons_self)
    obtain ⟨before, after, rfl⟩ := List.append_of_mem ha
    have hmiddle : (before ++ a :: after).Perm (a :: (before ++ after)) := List.perm_middle
    obtain ⟨m, hm, rfl⟩ := ih (h.trans (hmiddle.map f)).cons_inv
    exact ⟨a :: m, (hm.cons a).trans hmiddle.symm, rfl⟩

theorem exists_perm_filter_eq {p : α → Bool} {l l' : List α} (h : l'.Perm (l.filter p)) :
    ∃ m : List α, m.Perm l ∧ m.filter p = l' := by
  refine ⟨l' ++ l.filter fun a => !p a, (h.append_right _).trans (List.filter_append_perm p l), ?_⟩
  have hkept : l'.filter p = l' :=
    List.filter_eq_self.mpr fun a ha => (List.mem_filter.mp (h.subset ha)).2
  rw [List.filter_append, hkept, List.filter_filter]
  simp

/-- What is made of some of the groups can come in any order. -/
theorem exists_order_groups {β : Type*} (entries : List (κ × α)) (p : κ × List α → Bool)
    (f : κ × List α → β) {l : List β}
    (h : l.Perm (((groups insertionOrder entries).filter p).map f)) :
    ∃ o : IterationOrder κ, ((groups o entries).filter p).map f = l := by
  obtain ⟨kept, hkept, rfl⟩ := exists_perm_map_eq h
  obtain ⟨all, hall, rfl⟩ := exists_perm_filter_eq hkept
  obtain ⟨keys, hkeys, rfl⟩ := exists_perm_map_eq hall
  refine ⟨⟨fun l => if l = (entries.map Prod.fst).dedup then keys else l, fun l => ?_⟩, ?_⟩
  · split_ifs with hl
    · exact hl ▸ hkeys
    · exact List.Perm.refl l
  · rw [groups]
    simp only [if_true]

end Wardex.Lib
